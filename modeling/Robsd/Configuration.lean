import Mathlib.Algebra.Group.Int.Defs
import Mathlib.Algebra.Group.Nat.Defs
import Robsd.Bindings
import Robsd.Decimal
import Robsd.Fnmatch
import Robsd.Interpolate
import Robsd.Modes

/-!
The configuration (conf.c, conf-robsd.c, conf-robsd-cross.c, conf-robsd-ports.c,
conf-robsd-regress.c, conf-canvas.c): the grammar of each mode, the variables
and how they are looked up, with the defaults that are computed on demand.
-/
namespace Robsd.Configuration
open Robsd.Strings
open Robsd.Modes
open Robsd.Bindings
open Robsd.Decimal (decimal)
open Robsd.Fnmatch (fnmatch)
open Robsd.Interpolate (Lookup interpolateStr interpolate_plain interpolate_resolved)

/-- `struct variable_value`. -/
inductive Value where
  | invalid
  | integer (n : Int)
  | string (str : Str)
  | directory (str : Str)
  | list (xs : List Str)
  deriving DecidableEq, Repr

/-- `enum variable_type`. -/
inductive VariableType where
  | invalid
  | integer
  | string
  | directory
  | list
  deriving DecidableEq, Repr

/-- `variable_value_concat`, the first argument being a list. -/
def Value.concat (src : List Str) : Value → Value
  | .list dst => .list (dst ++ src)
  | val => val

/-- What `stat` tells about a path. -/
inductive Stat where
  | failed (reason : Str)
  | directory
  | other

/-- The outcomes of `glob`. -/
inductive Glob where
  | noMatch
  | failed (reason : Str)
  | paths (xs : List Str)

/-- What the configuration takes from the machine: constants of the compiler, the
    environment, the network interfaces, the processors, users and files. -/
structure Host where
  machine : Str
  machineArch : Str
  bigEndian : Bool
  execDir : Option Str
  inet4 : Option Str
  inet6 : Option Str
  processors : Int
  user : Str → Bool
  stat : Str → Stat
  glob : Str → Glob
  read : Str → Option Str

/-- The `int` read from a `variable_value` whose `i64` was assigned: the first
    four bytes of it. -/
def Host.i64 (host : Host) (n : Int) : Int :=
  if host.bigEndian then n/2^32 else n.bmod (2^32)

/-! ## Grammar -/

/-- The functions that parse what follows a keyword. -/
inductive Parser where
  | boolean
  | canvasDirectory
  | canvasStep
  | directory
  | glob
  | integer
  | list
  | regress
  | regressEnv
  | string
  | timeout
  | user
  deriving DecidableEq, Repr

/-- The functions that obtain a default. -/
inductive DefaultFunction where
  | buildDir
  | execDir
  | inet4
  | inet6
  | ncpu
  | trace
  | parallel
  | rdomain
  | regressTargets
  | regressTimeout
  deriving DecidableEq, Repr

/-- `gr_default`; `fn` goes with the flag `FUN`. -/
inductive Default where
  | null
  | machine
  | machineArch
  | s8 (str : Str)
  | i32 (n : Int)
  | fn (f : DefaultFunction)
  deriving DecidableEq, Repr

/-- `gr_flags`. -/
structure Flags where
  req : Bool := false
  rep : Bool := false
  pat : Bool := false
  early : Bool := false
  deriving DecidableEq, Repr

/-- `struct grammar`. -/
structure Grammar where
  kw : Str
  type : VariableType
  fn : Option Parser
  flags : Flags
  default : Default
  deriving DecidableEq, Repr

/-- A default that is given by a string. -/
def s8 (str : String) : Default := .s8 str.toList

def commonGrammar : List Grammar := [
  ⟨"arch".toList,.string,none,{},.machineArch⟩,
  ⟨"build-user".toList,.string,none,{},s8 "build"⟩,
  ⟨"builddir".toList,.string,none,{},.fn .buildDir⟩,
  ⟨"comment-path".toList,.string,none,{},s8 "$\x7bbuilddir\x7d/comment"⟩,
  ⟨"exec-dir".toList,.string,none,{},.fn .execDir⟩,
  ⟨"hook".toList,.list,some .list,{},.null⟩,
  ⟨"inet".toList,.string,none,{},.fn .inet4⟩,
  ⟨"inet6".toList,.string,none,{},.fn .inet6⟩,
  ⟨"keep".toList,.integer,some .integer,{},.null⟩,
  ⟨"keep-attic".toList,.integer,some .boolean,{},.i32 1⟩,
  ⟨"keep-dir".toList,.string,none,{},s8 "$\x7brobsddir\x7d/attic"⟩,
  ⟨"machine".toList,.string,none,{},.machine⟩,
  ⟨"ncpu".toList,.integer,none,{},.fn .ncpu⟩,
  ⟨"report-path".toList,.string,none,{},s8 "$\x7bbuilddir\x7d/report"⟩,
  ⟨"robsddir".toList,.directory,some .directory,{ req := true },.null⟩,
  ⟨"skip".toList,.list,some .list,{},.null⟩,
  ⟨"stat-interval".toList,.integer,some .integer,{},.i32 10⟩,
  ⟨"tags-path".toList,.string,none,{},s8 "$\x7bbuilddir\x7d/tags"⟩,
  ⟨"tmp-dir".toList,.string,none,{},s8 "$\x7bbuilddir\x7d/tmp"⟩,
  ⟨"trace".toList,.string,none,{},.fn .trace⟩]

def robsdGrammar : List Grammar := [
  ⟨"destdir".toList,.directory,some .directory,{ req := true },.null⟩,
  ⟨"kernel".toList,.string,some .string,{},s8 "GENERIC.MP"⟩,
  ⟨"reboot".toList,.integer,some .boolean,{},.null⟩,
  ⟨"bsd-diff".toList,.list,some .glob,{},.null⟩,
  ⟨"bsd-objdir".toList,.directory,some .directory,{},s8 "/usr/obj"⟩,
  ⟨"bsd-reldir".toList,.string,none,{},s8 "$\x7bbuilddir\x7d/rel"⟩,
  ⟨"bsd-srcdir".toList,.directory,some .directory,{},s8 "/usr/src"⟩,
  ⟨"cvs-root".toList,.string,some .string,{},.null⟩,
  ⟨"cvs-user".toList,.string,some .user,{},.null⟩,
  ⟨"distrib-host".toList,.string,some .string,{},.null⟩,
  ⟨"distrib-path".toList,.string,some .string,{},.null⟩,
  ⟨"distrib-signify".toList,.string,some .string,{},.null⟩,
  ⟨"distrib-user".toList,.string,some .user,{},.null⟩,
  ⟨"x11-diff".toList,.list,some .glob,{},.null⟩,
  ⟨"x11-objdir".toList,.directory,some .directory,{},s8 "/usr/xobj"⟩,
  ⟨"x11-reldir".toList,.string,none,{},s8 "$\x7bbuilddir\x7d/relx"⟩,
  ⟨"x11-srcdir".toList,.directory,some .directory,{},s8 "/usr/xenocara"⟩]

def robsdCrossGrammar : List Grammar := [
  ⟨"crossdir".toList,.string,some .string,{ req := true },.null⟩,
  ⟨"bsd-srcdir".toList,.directory,some .directory,{},s8 "/usr/src"⟩]

def robsdPortsGrammar : List Grammar := [
  ⟨"chroot".toList,.string,some .string,{ req := true },.null⟩,
  ⟨"cvs-root".toList,.string,some .string,{},.null⟩,
  ⟨"cvs-user".toList,.string,some .user,{},.null⟩,
  ⟨"distrib-host".toList,.string,some .string,{},.null⟩,
  ⟨"distrib-path".toList,.string,some .string,{},.null⟩,
  ⟨"distrib-signify".toList,.string,some .string,{},.null⟩,
  ⟨"distrib-user".toList,.string,some .user,{},.null⟩,
  ⟨"dpb".toList,.list,some .list,{},.null⟩,
  ⟨"ports".toList,.list,some .list,{ req := true },.null⟩,
  ⟨"ports-diff".toList,.list,some .glob,{},.null⟩,
  ⟨"ports-dir".toList,.string,some .string,{},s8 "/usr/ports"⟩,
  ⟨"ports-user".toList,.string,some .user,{ req := true },.null⟩]

def robsdRegressGrammar : List Grammar := [
  ⟨"parallel".toList,.integer,some .boolean,{},.i32 1⟩,
  ⟨"rdonly".toList,.integer,some .boolean,{},.null⟩,
  ⟨"sudo".toList,.string,some .string,{},s8 "doas -n"⟩,
  ⟨"bsd-diff".toList,.list,some .glob,{},.null⟩,
  ⟨"bsd-srcdir".toList,.directory,some .directory,{},s8 "/usr/src"⟩,
  ⟨"cvs-root".toList,.string,some .string,{},.null⟩,
  ⟨"cvs-user".toList,.string,some .user,{},.null⟩,
  ⟨"rdomain".toList,.integer,none,{ early := true },.fn .rdomain⟩,
  ⟨"regress".toList,.list,some .regress,{ req := true, rep := true },.null⟩,
  ⟨"regress-env".toList,.list,some .regressEnv,{ rep := true },.null⟩,
  ⟨"regress-user".toList,.string,some .user,{},s8 "$\x7bbuild-user\x7d"⟩,
  ⟨"regress-timeout".toList,.integer,some .timeout,{},.null⟩,
  ⟨"regress-*-env".toList,.string,none,{ pat := true, early := true },s8 "$\x7bregress-env\x7d"⟩,
  ⟨"regress-*-targets".toList,.list,none,{ pat := true },.fn .regressTargets⟩,
  ⟨"regress-*-parallel".toList,.integer,none,{ pat := true },.fn .parallel⟩,
  ⟨"regress-*-timeout".toList,.integer,none,{ pat := true },.fn .regressTimeout⟩]

def canvasGrammar : List Grammar := [
  ⟨"canvas-dir".toList,.string,some .canvasDirectory,{ req := true },.null⟩,
  ⟨"canvas-name".toList,.string,some .string,{ req := true },.null⟩,
  ⟨"env".toList,.list,some .list,{},.null⟩,
  ⟨"step".toList,.invalid,some .canvasStep,{ req := true, rep := true },.null⟩]

/-- The grammar of a mode, as `config_copy_grammar` puts it together. -/
def grammar : Mode → List Grammar
  | .robsd => robsdGrammar ++ commonGrammar
  | .robsdCross => robsdCrossGrammar ++ commonGrammar
  | .robsdPorts => robsdPortsGrammar ++ commonGrammar
  | .robsdRegress => robsdRegressGrammar ++ commonGrammar
  | .canvas => canvasGrammar ++ commonGrammar

/-- `config_find_grammar_for_keyword`: only a grammar with a function can be
    found, so that function comes with it. -/
def configFindGrammarForKeyword (mode : Mode) (needle : Str) : Option (Grammar × Parser) :=
  (grammar mode).findSome? fun gr => gr.fn.bind fun fn => if gr.kw = needle then some (gr,fn) else none

/-- `grammar_equals`. -/
def grammarEquals (gr : Grammar) (needle : Str) : Bool := gr.kw = needle || gr.flags.pat && fnmatch gr.kw needle

/-- `config_find_grammar_for_interpolation`. -/
def configFindGrammarForInterpolation (mode : Mode) (name : Str) : Option Grammar :=
  (grammar mode).find? fun gr => grammarEquals gr name

/-! ## State -/

/-- `struct config_step`, the command being `command.val`. -/
structure ConfigStep where
  name : Str
  command : List Str
  parallel : Bool := false
  deriving DecidableEq, Repr

/-- `struct config`, as far as it changes. `looped` is set where the default of
    `builddir` would be computed for its own computation, which has no end. -/
structure Config where
  mode : Mode
  vars : List (Str × Value) := []
  canvasSteps : List ConfigStep := []
  rdomain : Int := 32
  early : Bool := false
  trace : Bool := false
  looped : Bool := false
  deriving DecidableEq, Repr

/-- `config_steps_add_script`. -/
def configStepsAddScript (steps : List ConfigStep) (script stepName : Str) (parallel : Bool) : List ConfigStep :=
  steps ++ [⟨stepName,["sh".toList,"-eu".toList,"$\x7btrace\x7d".toList,script,stepName],parallel⟩]

/-- `config_alloc` for a mode, where the configuration file is given. -/
def configAlloc (mode : Mode) : Config := { mode := mode }

/-- The value of the first variable of a name. -/
def Config.value (cf : Config) (name : Str) : Option Value := first name cf.vars

/-- `config_present`. -/
def configPresent (cf : Config) (name : Str) : Bool := (cf.value name).isSome

/-- `config_append`. -/
def configAppend (cf : Config) (name : Str) (val : Value) : Config :=
  { cf with vars := (Change.bind name val).apply cf.vars }

/-- `config_find_or_create_list` and the `variable_value_concat` that follows it. -/
def configConcat (cf : Config) (name : Str) (xs : List Str) : Config :=
  { cf with vars := (Change.grow name (.list []) (Value.concat xs)).apply cf.vars }

/-! ## Lookup -/

/-- The default of a grammar whose default is no function. -/
def constant (host : Host) (gr : Grammar) : Value :=
  let str := match gr.default with
    | .s8 str => str
    | .machine => host.machine
    | .machineArch => host.machineArch
    | _ => []
  match gr.type with
  | .invalid => .invalid
  | .integer => .integer (match gr.default with | .i32 n => n | _ => 0)
  | .string => .string str
  | .directory => .directory str
  | .list => .list []

/-- `config_find` for a keyword whose default is no function. -/
def configFindConstant (host : Host) (name : Str) (cf : Config) : Option Value :=
  (cf.value name).or ((configFindGrammarForInterpolation cf.mode name).map (constant host))

/-- The bounds for rdomain. -/
def rdomainMin : Int := 32
def rdomainMax : Int := 256

/-- `config_default_rdomain`. -/
def configDefaultRdomain (cf : Config) : Option Value × Config :=
  if cf.rdomain = rdomainMax then (some (.integer rdomainMin),{ cf with rdomain := rdomainMin })
  else (some (.integer cf.rdomain),{ cf with rdomain := cf.rdomain+1 })

/-- A default that is appended under the name looked up. -/
def appended (cf : Config) (name : Str) (val : Value) : Option Value × Config := (some val,configAppend cf name val)

/-- The functions of `gr_default`, given the one for `builddir`. -/
def configDefault (host : Host) (buildDir : Str → Config → Option Value × Config) (f : DefaultFunction) (name : Str)
    (cf : Config) : Option Value × Config :=
  match f with
  | .buildDir => buildDir name cf
  | .execDir =>
    let execDir := host.execDir.getD []
    appended cf name (.string (if execDir = [] then "/usr/local/libexec/robsd".toList else execDir))
  | .inet4 => appended cf name (.string (host.inet4.getD []))
  | .inet6 => appended cf name (.string (host.inet6.getD []))
  | .ncpu => appended cf name (.integer (host.i64 (if host.processors = -1 then 1 else host.processors)))
  | .trace => appended cf name (.string (if cf.trace then "-x".toList else []))
  | .parallel => (configFindConstant host "parallel".toList cf,cf)
  | .rdomain => configDefaultRdomain cf
  | .regressTargets => appended cf name (.list ["regress".toList])
  | .regressTimeout => (configFindConstant host "regress-timeout".toList cf,cf)

/-- `config_find`, given the default of `builddir`. -/
def configFindWith (host : Host) (buildDir : Str → Config → Option Value × Config) (name : Str) (cf : Config) :
    Option Value × Config :=
  match cf.value name with
  | some val => (some val,cf)
  | none =>
    match configFindGrammarForInterpolation cf.mode name with
    | none => (none,cf)
    | some gr =>
      if gr.flags.req then (none,cf)
      else match gr.default with
        | .fn f => configDefault host buildDir f name cf
        | _ => (some (constant host gr),cf)

/-- `is_early_variable`. -/
def isEarlyVariable (mode : Mode) (name : Str) : Bool :=
  (configFindGrammarForInterpolation mode name).any (·.flags.early)

/-- Strings with a space between any two of them. -/
def spaces : List Str → Str
  | [] => []
  | [str] => str
  | str :: xs => str ++ ' ' :: spaces xs

/-- The text a value is replaced by in an interpolation, which only a valid one has. -/
def Value.text : Value → Option Str
  | .invalid => none
  | .integer n => some (decimal n)
  | .string str => some str
  | .directory str => some str
  | .list xs => some (spaces xs)

/-- `config_interpolate_lookup`, given `config_find`. -/
def configInterpolateLookupWith (find : Str → Config → Option Value × Config) : Lookup Config := fun name cf =>
  if cf.early && !isEarlyVariable cf.mode name then (none,cf)
  else ((find name cf).1.bind Value.text,(find name cf).2)

/-- The place of the file that names the build directory. -/
def runningTemplate : Str := "$\x7brobsddir\x7d/.running".toList

/-- `config_default_build_dir`, given `config_find`. -/
def configDefaultBuildDirWith (host : Host) (find : Str → Config → Option Value × Config) (name : Str) (cf : Config) :
    Option Value × Config :=
  match interpolateStr (configInterpolateLookupWith find) false runningTemplate cf with
  | (.error _,cf) => (none,cf)
  | (.ok path,cf) =>
    match host.read path with
    | none => (none,cf)
    | some text =>
      match strchr '\n' (text.takeWhile (· ≠ nul)) with
      | none => (none,cf)
      | some (line,_) => appended cf name (.string line)

/-- `config_find` while `builddir` is computed. -/
def configFindInner (host : Host) : Str → Config → Option Value × Config :=
  configFindWith host fun _ cf => (none,{ cf with looped := true })

/-- `config_default_build_dir`. -/
def configDefaultBuildDir (host : Host) : Str → Config → Option Value × Config :=
  configDefaultBuildDirWith host (configFindInner host)

/-- `config_find`. -/
def configFind (host : Host) : Str → Config → Option Value × Config :=
  configFindWith host (configDefaultBuildDir host)

/-- `config_interpolate_lookup`. -/
def configInterpolateLookup (host : Host) : Lookup Config := configInterpolateLookupWith (configFind host)

/-- `config_interpolate_early`. -/
def configInterpolateEarly (host : Host) (template : Str) (cf : Config) : Option Str × Config :=
  let out := interpolateStr (configInterpolateLookup host) true template { cf with early := true }
  (out.1.toOption,{ out.2 with early := false })

/-- `config_interpolate_str`. -/
def configInterpolateStr (host : Host) (str : Str) (cf : Config) : Option Str × Config :=
  let out := interpolateStr (configInterpolateLookup host) false str cf
  (out.1.toOption,out.2)

/-- The place of the file, where the directory of robsd is given without references. -/
theorem interpolateStr_running {σ : Type} {lookup : Lookup σ} {robsddir : Str} {s s' : σ} (plain : '$' ∉ robsddir)
    (looked : lookup "robsddir".toList s = (some robsddir,s')) :
    interpolateStr lookup false runningTemplate s = (.ok (robsddir ++ "/.running".toList),s') := by
  have inside := @interpolate_plain _ lookup false 2 robsddir plain s'
  have behind := @interpolate_plain _ lookup false 3 "/.running".toList (by decide) s'
  have reference := @interpolate_resolved _ _ false 3 _ _ _ "/.running".toList _ _ _ (by decide)
    (by decide) looked inside
  rw [behind] at reference
  exact reference

/-! ## Variables and changes -/

@[simp] theorem configAppend_value (cf : Config) (name name' : Str) (val : Value) :
    (configAppend cf name val).value name' = (cf.value name').or (if name = name' then some val else none) :=
  first_apply name' (.bind name val) cf.vars

@[simp] theorem configAppend_mode (cf : Config) (name : Str) (val : Value) :
    (configAppend cf name val).mode = cf.mode := rfl

@[simp] theorem configConcat_mode (cf : Config) (name : Str) (xs : List Str) :
    (configConcat cf name xs).mode = cf.mode := rfl

/-- A variable that is there is found whatever the grammar says. -/
theorem configFind_present {host : Host} {cf : Config} {name : Str} {val : Value} (there : cf.value name = some val) :
    configFind host name cf = (some val,cf) := by
  simp [configFind,configFindWith,there]

/-- A variable that is not there is given by the grammar. -/
theorem configFind_absent {host : Host} {cf : Config} {name : Str} (unset : cf.value name = none) :
    configFind host name cf =
      match configFindGrammarForInterpolation cf.mode name with
      | none => (none,cf)
      | some gr =>
        if gr.flags.req then (none,cf)
        else match gr.default with
          | .fn f => configDefault host (configDefaultBuildDir host) f name cf
          | _ => (some (constant host gr),cf) := by
  simp [configFind,configFindWith,unset]

end Robsd.Configuration
