import Mathlib.Logic.Relation
import Robsd.ArenaBlocks

/-!
The buffers of libks in an arena (buffer.c, arena-buffer.c): strings of bytes that grow,
whose memory is a block of the arena. In every run of a program with buffers and other
blocks in its arena, each buffer has the bytes that were put into it (`works_sound`), and
a buffer that is read from a file has all of its bytes (`read_whole`).
-/
namespace Robsd.Buffers
open Robsd.Memory
open Robsd.Arenas

/-- `struct buffer`, with the number of scopes that are active while its own is the
    innermost one. -/
structure Buffer where
  ptr : Option Nat
  siz : Nat
  len : Nat
  level : Nat

/-- The scope of the callbacks. -/
def Buffer.scope (bf : Buffer) (s : State) : Nat := s.scopes.length-bf.level

/-- `buffer_reserve`: whether it fails. The loop that doubles the size is that of the frames. -/
def bufferReserve (s : State) (bf : Buffer) (len : Nat) (overshoot : Bool) (room : Room) :
    Except Stop (Bool × Buffer × State) :=
  let newlen := bf.len+len
  if 2^64 ≤ newlen then .ok (true,bf,s)
  else if 0 < bf.siz ∧ newlen ≤ bf.siz then .ok (false,bf,s)
  else match if overshoot then growFrameSize newlen (if bf.siz = 0 then 16 else bf.siz) else some newlen with
    | none => .ok (true,bf,s)
    | some newsiz =>
      (call s (.realloc (bf.scope s) bf.ptr bf.siz newsiz room)).map fun (ptr,s) =>
        (false,{ bf with ptr, siz := newsiz },s)

/-- `sizeof(struct buffer)`. -/
def bufferStruct : Nat := 56

/-- `buffer_alloc_impl` with the callbacks of an arena: the place of the buffer, and the
    buffer. -/
def bufferAlloc (s : State) (level initSize : Nat) (overshoot : Bool) (structRoom room : Room) :
    Except Stop (Option (Nat × Buffer) × State) :=
  match call s (.calloc (s.scopes.length-level) 1 bufferStruct structRoom) with
  | .error e => .error e
  | .ok (place,s) =>
    (bufferReserve s ⟨none,0,0,level⟩ initSize overshoot room).map fun (failed,bf,s) =>
      (if failed then none else place.map (·,bf),s)

/-- The bytes behind those of a buffer. -/
def bufferWrite (s : State) (bf : Buffer) (bs : List UInt8) : Except Stop State :=
  match bf.ptr with
  | none => .error .fault
  | some ptr => (call s (.write (ptr+bf.len) bs)).map Prod.snd

/-- `buffer_puts`: whether it returns -1. -/
def bufferPuts (s : State) (bf : Buffer) (str : List UInt8) (room : Room) : Except Stop (Bool × Buffer × State) :=
  if str = [] then .ok (false,bf,s)
  else match bufferReserve s bf str.length true room with
    | .error e => .error e
    | .ok (true,bf,s) => .ok (true,bf,s)
    | .ok (false,bf,s) => (bufferWrite s bf str).map fun s => (false,{ bf with len := bf.len+str.length },s)

/-- `buffer_putc`. -/
def bufferPutc (s : State) (bf : Buffer) (ch : UInt8) (room : Room) : Except Stop (Bool × Buffer × State) :=
  bufferPuts s bf [ch] room

/-- `buffer_vprintf` for a text that is not that of `%s` alone. -/
def bufferVprintf (s : State) (bf : Buffer) (text : List UInt8) (room : Room) : Except Stop (Bool × Buffer × State) :=
  if 2^31 ≤ text.length then .ok (true,bf,s)
  else match bufferReserve s bf (text.length+1) true room with
    | .error e => .error e
    | .ok (true,bf,s) => .ok (true,bf,s)
    | .ok (false,bf,s) =>
      let len := bf.siz-bf.len
      -- vsnprintf
      if len = 0 then .ok (true,bf,s)
      else (bufferWrite s bf (text.take (len-1) ++ [0])).map fun s =>
        if len ≤ text.length then (true,bf,s) else (false,{ bf with len := bf.len+text.length },s)

def bufferPop (bf : Buffer) (n : Nat) : Buffer := { bf with len := bf.len-min n bf.len }

def bufferReset (bf : Buffer) : Buffer := { bf with len := 0 }

/-- Whether the last byte is a zero. -/
def bufferEnded (s : State) (bf : Buffer) : Except Stop Bool :=
  if bf.len = 0 then .ok false
  else match bf.ptr with
    | none => .error .fault
    | some ptr => (orFault (s.heap.load ⟨ptr+(bf.len-1),1⟩)).map (· = [0])

/-- `buffer_str`, before the release. -/
def bufferTerminate (s : State) (bf : Buffer) (room : Room) : Except Stop (Bool × Buffer × State) :=
  match bufferEnded s bf with
  | .error e => .error e
  | .ok true => .ok (false,bf,s)
  | .ok false => bufferPutc s bf 0 room

/-- A turn of the loop of `buffer_read_fd_impl` after some bytes were read. -/
def readTurn (doreserve : Bool) (s : State) (bf : Buffer) (bs : List UInt8) (room : Room) :
    Except Stop (Bool × Buffer × State) :=
  match bufferWrite s bf bs with
  | .error e => .error e
  | .ok s =>
    let bf := { bf with len := bf.len+bs.length }
    if doreserve then bufferReserve s bf (bf.siz/8) true room else .ok (false,bf,s)

/-- `buffer_read_fd_impl` for the answers of `read`, each with the memory after it: whether
    it fails, if the answers are enough. -/
def bufferReadFd (doreserve : Bool) :
    List (Option Nat × Room) → State → Buffer → List UInt8 → Except Stop (Option Bool × Buffer × State)
  | [],s,bf,_ => .ok (none,bf,s)
  | (none,_) :: _,s,bf,_ => .ok (some true,bf,s)
  | (some n,room) :: answers,s,bf,file =>
    if n = 0 then .ok (some false,bf,s)
    else match readTurn doreserve s bf (file.take n) room with
      | .error e => .error e
      | .ok (true,bf,s) => .ok (some true,bf,s)
      | .ok (false,bf,s) => bufferReadFd doreserve answers s bf (file.drop n)

/-- `arena_buffer_read` of a file that could be opened. Its size is estimated twice, as
    zero if it is not a regular file. -/
def arenaBufferRead (s : State) (level size again : Nat) (structRoom room : Room)
    (answers : List (Option Nat × Room)) (file : List UInt8) :
    Except Stop (Option Bool × Buffer × State) :=
  match bufferAlloc s level (if size = 0 then 1024 else size) (size = 0) structRoom room with
  | .error e => .error e
  | .ok (none,_) => .error .fault
  | .ok (some (_,bf),s) => bufferReadFd (again ≠ bf.siz-bf.len) answers s bf file

/-- `read` never fails: it answers with some bytes of the file until it answers with none,
    which it does only at the end of the file or where none are asked for. -/
def Answers (doreserve : Bool) : List (Option Nat × Room) → State → Buffer → List UInt8 → Prop
  | [],_,_,_ => False
  | (none,_) :: _,_,_,_ => False
  | (some n,room) :: answers,s,bf,file =>
    n ≤ bf.siz-bf.len ∧ n ≤ file.length ∧ (n = 0 → bf.siz ≤ bf.len ∨ file = []) ∧
    (0 < n → (∀ s', bufferWrite s bf (file.take n) = .ok s' → RoomFresh s'.heap room) ∧
      ∀ bf' s', readTurn doreserve s bf (file.take n) room = .ok (false,bf',s') →
        Answers doreserve answers s' bf' (file.drop n))

/-- What is done with a buffer. -/
inductive Op where
  | puts (str : List UInt8)
  | printf (text : List UInt8)
  | pop (n : Nat)
  | reset
  | terminate

/-- An operation: whether it fails, and the buffer and the state after it. -/
def Op.run (s : State) (bf : Buffer) (room : Room) : Op → Except Stop (Bool × Buffer × State)
  | .puts str => bufferPuts s bf str room
  | .printf text => bufferVprintf s bf text room
  | .pop n => .ok (false,bufferPop bf n,s)
  | .reset => .ok (false,bufferReset bf,s)
  | .terminate => bufferTerminate s bf room

/-- What an operation means for a string of bytes. -/
def Op.content (content : List UInt8) : Op → List UInt8
  | .puts str => content ++ str
  | .printf text => content ++ text
  | .pop n => content.take (content.length-n)
  | .reset => []
  | .terminate => if content.getLast? = some 0 then content else content ++ [0]

/-- The bytes that an operation asks for. -/
def Op.size : Op → Nat
  | .puts str => str.length
  | .printf text => text.length+1
  | .terminate => 1
  | _ => 0

/-! ## A buffer and its block -/

/-- The calls for a buffer whose scope is the innermost one. -/
def Backs : Call → Prop
  | .calloc i _ _ _ => i = 0
  | .realloc i _ _ _ _ => i = 0
  | .write _ _ => True
  | _ => False

/-- What the arena becomes by such calls. -/
def Backed : State → State → Prop :=
  Relation.ReflTransGen fun s s' => ∃ c out, call s c = .ok (out,s') ∧ Backs c

/-- The program ends because the arena, as it is after some calls for a buffer, refuses it
    a block of at most so many bytes, for which there is one of the memories. -/
def Lacks (s : State) (most : Nat) (rooms : List Room) (e : Stop) : Prop :=
  ∃ s', Backed s s' ∧ ∃ size ≤ most, ∃ room ∈ rooms, Refused s' 0 size room e

/-- A block has the bytes of a buffer. -/
structure Own (bf : Buffer) (content : List UInt8) (b : Block) : Prop where
  ptr : bf.ptr = some b.addr
  siz : b.data.length = bf.siz
  positive : 0 < bf.siz
  len : bf.len ≤ bf.siz
  content : b.data.take bf.len = content
  level : b.level = bf.level

theorem growFrameSize_least {total n k : Nat} (grown : growFrameSize total k = some n) : total ≤ n ∧ k ≤ n := by
  fun_induction growFrameSize total k with
  | case1 => cases grown
  | case2 k less fits ih =>
    obtain ⟨enough,more⟩ := ih grown
    omega
  | case3 k enough =>
    cases grown
    omega

theorem growFrameSize_none {total k : Nat} (positive : 0 < k) (overflow : growFrameSize total k = none) :
    2^63 < total := by
  fun_induction growFrameSize total k with
  | case1 k less wraps => omega
  | case2 k less fits ih => exact ih (by omega) overflow
  | case3 => cases overflow

section
variable {s : State} {d : Blocks} {depth : Nat} {before behind : List Block} {b : Block} {bf : Buffer}
  {content : List UInt8} {room : Room}

/-- A call does what it says, or the program ends. -/
theorem ran_call (ran : Ran s d) {c : Call} (allowed : c.Allowed d s.freed) (fresh : c.Fresh s.heap) :
    (∃ out s', call s c = .ok (out,s') ∧ (∃ d', Takes s'.heap.bytes d c out d') ∧
      ∀ d', Takes s'.heap.bytes d c out d' → Ran s' d') ∨
    ∃ e, call s c = .error e ∧ Ends s c e := by
  obtain ⟨slots,holds⟩ := ran_holds ran
  rcases call_holds holds c allowed fresh with ⟨out,s',run,_,takes,_⟩ | ended
  · exact .inl ⟨out,s',run,takes,fun d' there => .call ran allowed fresh run there⟩
  · exact .inr ended

theorem ran_depth (ran : Ran s d) : s.scopes.length = d.depth := by
  obtain ⟨slots,holds⟩ := ran_holds ran
  exact holds.depth

theorem ran_reads (ran : Ran s d) : Sound s d := by
  obtain ⟨slots,holds⟩ := ran_holds ran
  exact holds.sound

theorem inScope_some {i : Nat} {f : Nat → Except Stop (Nat × State)} {out : Option Nat} {s' : State}
    (run : s.inScope i f = .ok (out,s')) :
    ∃ p, out = some p := by
  unfold State.inScope at run
  split at run
  · cases run
  · next scope _ =>
    cases ended : f scope.id with
    | error e => rw [ended] at run; cases run
    | ok value => rw [ended] at run; cases run; exact ⟨_,rfl⟩

/-- The block of a buffer with more bytes. -/
theorem ran_realloc (ran : Ran s ⟨depth,before ++ b :: behind⟩) (fresh : RoomFresh s.heap room)
    (active : 0 < depth) {n : Nat} (more : b.data.length < n) :
    (∃ p s', call s (.realloc 0 (some b.addr) b.data.length n room) = .ok (some p,s') ∧
      Ran s' ⟨depth,before ++ ⟨p,b.data ++ read s'.heap.bytes (p+b.data.length) (n-b.data.length),depth⟩ :: behind⟩) ∨
    ∃ e, call s (.realloc 0 (some b.addr) b.data.length n room) = .error e ∧
      Ends s (.realloc 0 (some b.addr) b.data.length n room) e := by
  have allowed : (Call.realloc 0 (some b.addr) b.data.length n room).Allowed ⟨depth,before ++ b :: behind⟩ s.freed :=
    ⟨active,fun p same => ⟨b,by simp,by simpa using same,Nat.le_refl _⟩⟩
  rcases ran_call ran allowed fresh with ⟨out,s',run,⟨d',takes⟩,after⟩ | ended
  · obtain ⟨p,rfl⟩ := inScope_some (show s.inScope 0
      (fun id => arenaRealloc s id (some b.addr) b.data.length n room) = .ok (out,s') from run)
    refine .inl ⟨p,s',run,?_⟩
    have grown := after _ (.grow depth before b behind 0 b.data.length n room (Nat.le_refl _) more p)
    rwa [List.take_length] at grown
  · exact .inr ended

theorem ran_write (ran : Ran s ⟨depth,before ++ b :: behind⟩) (k : Nat) (bs : List UInt8)
    (fits : k+bs.length ≤ b.data.length) :
    ∃ s', call s (.write (b.addr+k) bs) = .ok (none,s') ∧
      Ran s' ⟨depth,before ++ { b with data := b.data.take k ++ bs ++ b.data.drop (k+bs.length) } :: behind⟩ := by
  have allowed : (Call.write (b.addr+k) bs).Allowed ⟨depth,before ++ b :: behind⟩ s.freed :=
    ⟨b,by simp,Nat.le_add_right _ _,by simp only [Block.region]; omega⟩
  rcases ran_call ran allowed trivial with ⟨out,s',run,_,after⟩ | ⟨e,_,impossible⟩
  · obtain rfl : out = none := by
      simp only [call] at run
      cases put : s.heap.put (b.addr+k) bs with
      | none => rw [put] at run; cases run
      | some heap => rw [put] at run; cases run; rfl
    exact ⟨s',run,after _ (.write depth before b behind k bs fits)⟩
  · exact impossible.elim

theorem Own.length (own : Own bf content b) : content.length = bf.len := by
  rw [← own.content,List.length_take,own.siz]
  exact Nat.min_eq_left own.len

/-- Bytes are written behind those of the buffer, of which it takes some. -/
theorem Own.written (own : Own bf content b) {taken more : List UInt8} (fits : bf.len+(taken ++ more).length ≤ bf.siz) :
    Own { bf with len := bf.len+taken.length } (content ++ taken)
      { b with data := b.data.take bf.len ++ (taken ++ more) ++ b.data.drop (bf.len+(taken ++ more).length) } := by
  have length := own.length
  have siz := own.siz
  rw [List.length_append] at fits
  refine ⟨own.ptr,?_,own.positive,by simp only; omega,?_,own.level⟩
  · simp only [List.length_append,List.length_take,List.length_drop]
    omega
  · rw [own.content,List.append_assoc,List.append_assoc,← List.append_assoc,List.take_left']
    simp [length]

/-- A buffer that needs room for more bytes ends the program: the arena refuses its block
    the doubled size. -/
def Stops (s : State) (bf : Buffer) (more : Nat) (room : Room) (e : Stop) : Prop :=
  bf.siz < bf.len+more ∧ ∃ n, Doubled (bf.len+more) bf.siz n ∧ Ends s (.realloc 0 bf.ptr bf.siz n room) e

/-- The room for more bytes. -/
theorem reserve_spec (ran : Ran s ⟨depth,before ++ b :: behind⟩) (own : Own bf content b)
    (fresh : RoomFresh s.heap room) (innermost : bf.level = depth) (active : 0 < depth) (n : Nat) :
    (bufferReserve s bf n true room = .ok (true,bf,s) ∧ 2^63 < bf.len+n) ∨
    (∃ bf' s' b', bufferReserve s bf n true room = .ok (false,bf',s') ∧ Ran s' ⟨depth,before ++ b' :: behind⟩ ∧
      Own bf' content b' ∧ bf'.len = bf.len ∧ bf'.level = bf.level ∧ bf.len+n ≤ bf'.siz ∧ bf.siz ≤ bf'.siz ∧
        (bf.len+n ≤ bf.siz → bf'.siz = bf.siz) ∧ bf'.siz ≤ max bf.siz (2*(bf.len+n)) ∧ Backed s s') ∨
    ∃ e, bufferReserve s bf n true room = .error e ∧ Stops s bf n room e := by
  have positive := own.positive
  have same : (if bf.siz = 0 then 16 else bf.siz) = bf.siz := if_neg (by omega)
  simp only [bufferReserve,same,↓reduceIte]
  split_ifs with overflow enough
  · exact .inl ⟨rfl,by omega⟩
  · exact .inr (.inl ⟨bf,s,b,rfl,ran,own,rfl,rfl,enough.2,Nat.le_refl _,fun _ => rfl,
      Nat.le_max_left _ _,.refl⟩)
  · cases grown : growFrameSize (bf.len+n) bf.siz with
    | none => exact .inl ⟨rfl,growFrameSize_none positive grown⟩
    | some newsiz =>
      obtain ⟨least,larger⟩ := growFrameSize_least grown
      have less := (growFrameSize_doubled grown).less
      have scope : bf.scope s = 0 := by
        have here := ran_depth ran
        simp only [Buffer.scope] at here ⊢
        omega
      have siz := own.siz
      simp only [scope,own.ptr,← siz]
      rcases ran_realloc ran fresh active (n := newsiz) (by omega) with ⟨p,s',run,after⟩ | ⟨e,run,ended⟩
      · refine .inr (.inl ⟨{ bf with ptr := some p, siz := newsiz },s',_,by rw [run]; rfl,after,
          ⟨rfl,?_,by simp only; omega,by simp only; omega,?_,innermost.symm⟩,rfl,rfl,least,?_,fun fits => by omega,
          by simp only; omega,.single ⟨_,_,run,rfl⟩⟩)
        · simp only [List.length_append,length_read]
          omega
        · have len := own.len
          rw [List.take_append_of_le_length (by simp only; omega)]
          exact own.content
        · simp only
          omega
      · refine .inr (.inr ⟨e,by rw [run]; rfl,by omega,newsiz,growFrameSize_doubled grown,?_⟩)
        rw [own.ptr,← siz]
        exact ended

/-- Bytes are put behind those of a buffer that has the room for them. -/
theorem write_spec (ran : Ran s ⟨depth,before ++ b :: behind⟩) (own : Own bf content b) (taken more : List UInt8)
    (fits : bf.len+(taken ++ more).length ≤ bf.siz) :
    ∃ s' b', bufferWrite s bf (taken ++ more) = .ok s' ∧ Ran s' ⟨depth,before ++ b' :: behind⟩ ∧
      Own { bf with len := bf.len+taken.length } (content ++ taken) b' ∧ Backed s s' := by
  obtain ⟨s',run,after⟩ := ran_write ran bf.len (taken ++ more) (by rw [own.siz]; exact fits)
  exact ⟨s',_,by simp [bufferWrite,own.ptr,run,Except.map],after,own.written fits,.single ⟨_,_,run,trivial⟩⟩

/-- An operation does to the buffer what it means, or it fails for want of numbers, or
    the program ends. -/
def Does (s : State) (depth : Nat) (before behind : List Block) (bf : Buffer) (room : Room)
    (content content' : List UInt8) (size : Nat) (result : Except Stop (Bool × Buffer × State)) : Prop :=
  (∃ failed bf' s' b', result = .ok (failed,bf',s') ∧ Ran s' ⟨depth,before ++ b' :: behind⟩ ∧
    Own bf' (if failed then content else content') b' ∧ bf'.level = bf.level ∧ (failed = true → 2^31 ≤ bf.len+size)) ∨
  ∃ e, result = .error e ∧ Stops s bf size room e

theorem puts_spec (ran : Ran s ⟨depth,before ++ b :: behind⟩) (own : Own bf content b) (fresh : RoomFresh s.heap room)
    (innermost : bf.level = depth) (active : 0 < depth) (str : List UInt8) :
    Does s depth before behind bf room content (content ++ str) str.length (bufferPuts s bf str room) := by
  unfold bufferPuts
  split_ifs with empty
  · refine .inl ⟨false,bf,s,b,rfl,ran,?_,rfl,nofun⟩
    rw [empty]
    simpa using own
  rcases reserve_spec ran own fresh innermost active str.length with
    ⟨run,large⟩ | ⟨bf1,s1,b1,run,ran1,own1,len1,level1,fits,_⟩ | ⟨e,run,stops⟩
  · rw [run]
    exact .inl ⟨true,bf,s,b,rfl,ran,own,rfl,fun _ => by omega⟩
  · obtain ⟨s',b',wrote,ran',own',_⟩ := write_spec ran1 own1 str [] (by rw [List.append_nil,len1]; exact fits)
    rw [List.append_nil] at wrote
    rw [run]
    exact .inl ⟨false,_,s',b',by simp only [wrote]; rfl,ran',own',level1,nofun⟩
  · rw [run]
    exact .inr ⟨e,rfl,stops⟩

theorem vprintf_spec (ran : Ran s ⟨depth,before ++ b :: behind⟩) (own : Own bf content b)
    (fresh : RoomFresh s.heap room) (innermost : bf.level = depth) (active : 0 < depth) (text : List UInt8) :
    Does s depth before behind bf room content (content ++ text) (text.length+1) (bufferVprintf s bf text room) := by
  unfold bufferVprintf
  split_ifs with long
  · exact .inl ⟨true,bf,s,b,rfl,ran,own,rfl,fun _ => by omega⟩
  rcases reserve_spec ran own fresh innermost active (text.length+1) with
    ⟨run,large⟩ | ⟨bf1,s1,b1,run,ran1,own1,len1,level1,fits,_⟩ | ⟨e,run,stops⟩
  · rw [run]
    exact .inl ⟨true,bf,s,b,rfl,ran,own,rfl,fun _ => by omega⟩
  · obtain ⟨s',b',wrote,ran',own',_⟩ := write_spec ran1 own1 text [0]
      (by simp only [List.length_append,List.length_singleton]; omega)
    have whole : text.take (bf1.siz-bf1.len-1) = text := List.take_of_length_le (by omega)
    have some_ : ¬ bf1.siz-bf1.len = 0 := by omega
    have fits_ : ¬ bf1.siz-bf1.len ≤ text.length := by omega
    rw [run]
    refine .inl ⟨false,_,s',b',?_,ran',own',level1,nofun⟩
    simp only [some_,fits_,whole,wrote,↓reduceIte]
    rfl
  · rw [run]
    exact .inr ⟨e,rfl,stops⟩

/-- The bytes of a buffer are in the memory. -/
theorem own_read (ran : Ran s d) (member : b ∈ d.live) (own : Own bf content b) :
    Memory.read s.heap.bytes b.addr bf.len = content := by
  have reads := (ran_reads ran).reads b member
  have len := own.len
  rw [← own.content,← reads,read_take _ _ (by rw [own.siz]; exact len)]

theorem ended_spec (ran : Ran s ⟨depth,before ++ b :: behind⟩) (own : Own bf content b) :
    bufferEnded s bf = .ok (decide (content.getLast? = some 0)) := by
  have reads := own_read ran (by simp) own
  have len := own.len
  unfold bufferEnded
  split_ifs with empty
  · rw [empty] at reads
    simp [← reads,Memory.read]
  · obtain ⟨k,last⟩ := Nat.exists_eq_succ_of_ne_zero empty
    obtain ⟨slots,holds⟩ := ran_holds ran
    obtain ⟨q,region,low,high⟩ := holds.covered (b := b) (by simp)
    have siz := own.siz
    have covers : q.Covers ⟨b.addr+(bf.len-1),1⟩ := by
      simp only [Region.Covers,Block.region] at low high ⊢
      omega
    have shape : content = Memory.read s.heap.bytes b.addr k ++ [s.heap.bytes (b.addr+k)] := by
      rw [← reads,last,Nat.succ_eq_add_one,read_append]
      rfl
    have byte : Memory.read s.heap.bytes (b.addr+(bf.len-1)) 1 = [s.heap.bytes (b.addr+k)] := by
      rw [last]
      rfl
    simp only [own.ptr,Heap.load_covered region covers,byte,orFault,Except.map,shape,List.getLast?_concat]
    simp

theorem terminate_spec (ran : Ran s ⟨depth,before ++ b :: behind⟩) (own : Own bf content b)
    (fresh : RoomFresh s.heap room) (innermost : bf.level = depth) (active : 0 < depth) :
    Does s depth before behind bf room content (if content.getLast? = some 0 then content else content ++ [0])
      1 (bufferTerminate s bf room) := by
  unfold bufferTerminate
  rw [ended_spec ran own]
  by_cases zero : content.getLast? = some 0
  · simp only [zero,decide_true,↓reduceIte]
    exact .inl ⟨false,bf,s,b,rfl,ran,own,rfl,nofun⟩
  · simp only [zero,decide_false,↓reduceIte]
    exact puts_spec ran own fresh innermost active [0]

theorem op_spec (ran : Ran s ⟨depth,before ++ b :: behind⟩) (own : Own bf content b) (fresh : RoomFresh s.heap room)
    (innermost : bf.level = depth) (active : 0 < depth) (op : Op) :
    Does s depth before behind bf room content (op.content content) op.size (op.run s bf room) := by
  have length := own.length
  cases op with
  | puts str => exact puts_spec ran own fresh innermost active str
  | printf text => exact vprintf_spec ran own fresh innermost active text
  | terminate => exact terminate_spec ran own fresh innermost active
  | pop n =>
    refine .inl ⟨false,_,s,b,rfl,ran,⟨own.ptr,own.siz,own.positive,?_,?_,own.level⟩,rfl,nofun⟩
    · have len := own.len
      simp only [bufferPop]
      omega
    · simp only [bufferPop,Op.content,Bool.false_eq_true,↓reduceIte]
      rw [← own.content,List.take_take,own.content,length]
      congr 1
      omega
  | reset => exact .inl ⟨false,_,s,b,rfl,ran,⟨own.ptr,own.siz,own.positive,Nat.zero_le _,rfl,own.level⟩,rfl,nofun⟩

/-- A new buffer has a block for its bytes and one for itself. -/
theorem alloc_spec (ran : Ran s d) (active : 0 < d.depth) {structRoom : Room}
    (structFresh : RoomFresh s.heap structRoom)
    (fresh : ∀ out s1, call s (.calloc 0 1 bufferStruct structRoom) = .ok (out,s1) → RoomFresh s1.heap room)
    {initSize : Nat} (positive : 0 < initSize) (overshoot : Bool) :
    (∃ bf s' b q, bufferAlloc s d.depth initSize overshoot structRoom room = .ok (some (q,bf),s') ∧
      Ran s' ⟨d.depth,b :: ⟨q,List.replicate bufferStruct 0,d.depth⟩ :: d.live⟩ ∧ Own bf [] b ∧ bf.level = d.depth ∧
      (if overshoot then growFrameSize initSize 16 else some initSize) = some bf.siz ∧ Backed s s') ∨
    (∃ s', bufferAlloc s d.depth initSize overshoot structRoom room = .ok (none,s') ∧ 2^63 < initSize) ∨
    ∃ e, bufferAlloc s d.depth initSize overshoot structRoom room = .error e ∧
      Lacks s (max bufferStruct ((if overshoot then growFrameSize initSize 16 else some initSize).getD 0))
        [structRoom,room] e := by
  have innermost : s.scopes.length-d.depth = 0 := by rw [ran_depth ran]; omega
  unfold bufferAlloc
  rw [innermost]
  rcases ran_call ran (c := .calloc 0 1 bufferStruct structRoom) active structFresh with
    ⟨out,s1,run,_,after⟩ | ⟨e,run,ended⟩
  swap
  · rw [run]
    exact .inr (.inr ⟨e,rfl,s,.refl,_,Nat.le_max_left _ _,structRoom,by simp,ended⟩)
  have first : Backed s s1 := .single ⟨_,_,run,rfl⟩
  obtain ⟨q,rfl⟩ := inScope_some
    (show s.inScope 0 (fun id => arenaCalloc s id 1 bufferStruct structRoom) = .ok (out,s1) from run)
  have ran1 := after _ (.calloc d 0 1 bufferStruct structRoom q)
  rw [Nat.one_mul] at ran1
  have innermost1 : s1.scopes.length-d.depth = 0 := by rw [ran_depth ran1]; simp
  have reserves : ∀ newsiz, (∃ p s', call s1 (.realloc 0 none 0 newsiz room) = .ok (some p,s') ∧
        Ran s' ⟨d.depth,⟨p,Memory.read s'.heap.bytes p newsiz,d.depth⟩ ::
          ⟨q,List.replicate bufferStruct 0,d.depth⟩ :: d.live⟩) ∨
      ∃ e, call s1 (.realloc 0 none 0 newsiz room) = .error e ∧ Ends s1 (.realloc 0 none 0 newsiz room) e := by
    intro newsiz
    rcases ran_call ran1 (c := .realloc 0 none 0 newsiz room) ⟨active,nofun⟩ (fresh _ _ run) with
      ⟨out,s',run1,_,after1⟩ | ended
    · obtain ⟨p,rfl⟩ := inScope_some
        (show s1.inScope 0 (fun id => arenaRealloc s1 id none 0 newsiz room) = .ok (out,s') from run1)
      exact .inl ⟨p,s',run1,after1 _ (.reallocNull _ 0 0 newsiz room p)⟩
    · exact .inr ended
  have owns : ∀ (bytes : Bytes) p newsiz, 0 < newsiz →
    Own ⟨some p,newsiz,0,d.depth⟩ [] ⟨p,Memory.read bytes p newsiz,d.depth⟩ :=
    fun bytes p newsiz some_ => ⟨rfl,length_read ..,some_,Nat.zero_le _,rfl,rfl⟩
  rw [run]
  simp only [bufferReserve,Buffer.scope,innermost1,Nat.zero_add,↓reduceIte,Nat.lt_irrefl,false_and]
  by_cases overflow : 2^64 ≤ initSize
  · rw [if_pos overflow]
    exact .inr (.inl ⟨s1,rfl,by omega⟩)
  rw [if_neg overflow]
  cases overshoot with
  | true =>
    cases grown : growFrameSize initSize 16 with
    | none =>
      refine .inr (.inl ⟨s1,?_,growFrameSize_none (by decide) grown⟩)
      simp only [↓reduceIte]
      rfl
    | some newsiz =>
      have enough := (growFrameSize_least grown).1
      simp only [↓reduceIte]
      rcases reserves newsiz with ⟨p,s',run1,ran2⟩ | ⟨e,run1,ended⟩
      · exact .inl ⟨_,s',_,q,by rw [run1]; rfl,ran2,owns _ p newsiz (by omega),rfl,rfl,first.tail ⟨_,_,run1,rfl⟩⟩
      · exact .inr (.inr ⟨e,by rw [run1]; rfl,s1,first,newsiz,Nat.le_max_right _ _,room,by simp,ended.1⟩)
  | false =>
    simp only [Bool.false_eq_true,↓reduceIte]
    rcases reserves initSize with ⟨p,s',run1,ran2⟩ | ⟨e,run1,ended⟩
    · exact .inl ⟨_,s',_,q,by rw [run1]; rfl,ran2,owns _ p initSize positive,rfl,rfl,first.tail ⟨_,_,run1,rfl⟩⟩
    · exact .inr (.inr ⟨e,by rw [run1]; rfl,s1,first,initSize,Nat.le_max_right _ _,room,by simp,ended.1⟩)

end

/-! ## Programs with buffers -/

/-- A call is not one for the block of a buffer. -/
def Spares (bf : Buffer) : Call → Prop
  | .realloc _ ptr _ _ _ => ptr ≠ bf.ptr
  | .write addr bs => ∀ p, bf.ptr = some p → ¬ (⟨p,bf.siz⟩ : Region).Covers ⟨addr,bs.length⟩
  | _ => True

/-- The block of a buffer is replaced by the one that it has now. -/
def Replaces (bytes : Bytes) (bf bf' : Buffer) (d d' : Blocks) : Prop :=
  ∃ before b behind p, d.live = before ++ b :: behind ∧ bf.ptr = some b.addr ∧
    b.data.length = bf.siz ∧ bf'.ptr = some p ∧
    d' = ⟨d.depth,before ++ ⟨p,Memory.read bytes p bf'.siz,d.depth⟩ :: behind⟩

/-- The states of a program that has buffers in its arena, next to its blocks and to the
    strings that its buffers mean. Other calls leave the blocks of the buffers alone, and
    a buffer is used while its scope is the innermost one. -/
inductive Works : State → Blocks → List (Buffer × List UInt8) → Prop
  | start {s : State} {d : Blocks} (ran : Ran s d) : Works s d []
  | call {s s' : State} {d d' : Blocks} {os : List (Buffer × List UInt8)} {c : Call} {out : Option Nat}
    (before : Works s d os) (allowed : c.Allowed d s.freed) (fresh : c.Fresh s.heap)
    (run : call s c = .ok (out,s')) (takes : Takes s'.heap.bytes d c out d') (spares : ∀ o ∈ os, Spares o.1 c) :
    Works s' d' (os.filter fun o => o.1.level ≤ d'.depth)
  | alloc {s s' : State} {d : Blocks} {os : List (Buffer × List UInt8)} {structRoom room : Room}
    (initSize : Nat) (overshoot : Bool) {bf : Buffer} {p q : Nat} (before : Works s d os)
    (active : 0 < d.depth) (structFresh : RoomFresh s.heap structRoom)
    (fresh : ∀ out s1, Arenas.call s (.calloc 0 1 bufferStruct structRoom) = .ok (out,s1) → RoomFresh s1.heap room)
    (positive : 0 < initSize)
    (run : bufferAlloc s d.depth initSize overshoot structRoom room = .ok (some (q,bf),s'))
    (ptr : bf.ptr = some p) :
    Works s' ⟨d.depth,⟨p,Memory.read s'.heap.bytes p bf.siz,d.depth⟩ ::
      ⟨q,List.replicate bufferStruct 0,d.depth⟩ :: d.live⟩ ((bf,[]) :: os)
  | op {s s' : State} {d d' : Blocks} (left right : List (Buffer × List UInt8)) {bf bf' : Buffer}
    {content : List UInt8} {room : Room} {failed : Bool} (op : Op)
    (before : Works s d (left ++ (bf,content) :: right)) (innermost : bf.level = d.depth)
    (active : 0 < d.depth) (fresh : RoomFresh s.heap room) (run : op.run s bf room = .ok (failed,bf',s'))
    (takes : Replaces s'.heap.bytes bf bf' d d') :
    Works s' d' (left ++ (bf',if failed then content else op.content content) :: right)
  | release {s : State} {d : Blocks} {left right : List (Buffer × List UInt8)} {o : Buffer × List UInt8}
    (before : Works s d (left ++ o :: right)) : Works s d (left ++ right)

section
variable {s : State} {d d' : Blocks} {os : List (Buffer × List UInt8)} {bf : Buffer} {content : List UInt8}

/-- Blocks at one place are the same, if they are not empty. -/
theorem same_block (ran : Ran s d) {b c : Block} (first : b ∈ d.live) (second : c ∈ d.live) (addr : b.addr = c.addr)
    (some_ : 0 < b.data.length) (some_' : 0 < c.data.length) : b = c := by
  by_contra different
  have : Std.Symm fun b c : Block => Apart b.region c.region := ⟨fun _ _ apart => apart.symm⟩
  have apart := (ran_reads ran).apart.forall first second different
  refine apart b.addr ⟨Nat.le_refl _,?_⟩ ⟨addr ▸ Nat.le_refl _,?_⟩
  · simp only [Block.region]
    omega
  · simp only [Block.region]
    omega

/-- What spares a buffer leaves its block there, as long as its scope is. -/
theorem takes_spares {bytes : Bytes} {c : Call} {out : Option Nat} {b : Block}
    (takes : Takes bytes d c out d') (member : b ∈ d.live) (own : Own bf content b) (spares : Spares bf c)
    (level : bf.level ≤ d'.depth) :
    b ∈ d'.live := by
  cases takes with
  | enter => exact member
  | leave depth live => exact List.mem_filter.mpr ⟨member,by simpa [own.level] using level⟩
  | malloc => exact List.mem_cons_of_mem _ member
  | calloc => exact List.mem_cons_of_mem _ member
  | strndup => exact List.mem_cons_of_mem _ member
  | reallocNull => exact List.mem_cons_of_mem _ member
  | shrink depth before b' behind =>
    rcases mem_others member with rfl | other
    · exact absurd own.ptr.symm spares
    · exact others_mem other
  | grow depth before b' behind =>
    rcases mem_others member with rfl | other
    · exact absurd own.ptr.symm spares
    · exact others_mem other
  | write depth before b' behind k bs fits =>
    rcases mem_others member with rfl | other
    · refine absurd ?_ (spares _ own.ptr)
      have siz := own.siz
      simp only [Region.Covers]
      omega
    · exact others_mem other
  | free => exact member

/-- What is known of the buffers. -/
structure Known (s : State) (d : Blocks) (os : List (Buffer × List UInt8)) : Prop where
  ran : Ran s d
  own : ∀ o ∈ os, ∃ b ∈ d.live, Own o.1 o.2 b
  distinct : os.Pairwise fun o o' => o.1.ptr ≠ o'.1.ptr

/-- The block of a buffer in another place is not that of another buffer. -/
theorem other_block {o : Buffer × List UInt8} {b c : Block} (own : Own o.1 o.2 c) (ptr : bf.ptr = some b.addr)
    (different : o.1.ptr ≠ bf.ptr) :
    c ≠ b := by
  rintro rfl
  exact different (own.ptr.trans ptr.symm)

/-- Buffers with blocks apart from each other are different. -/
theorem ptr_ne {o : Buffer × List UInt8} {b c : Block} (own' : Own bf content b) (own : Own o.1 o.2 c)
    (apart : Apart b.region c.region) :
    bf.ptr ≠ o.1.ptr := by
  intro same
  have addr : b.addr = c.addr := Option.some.inj (own'.ptr.symm.trans (same.trans own.ptr))
  have positive := own.positive
  have siz := own.siz
  have positive' := own'.positive
  have siz' := own'.siz
  refine apart b.addr ⟨Nat.le_refl _,?_⟩ ⟨addr ▸ Nat.le_refl _,?_⟩
  · simp only [Block.region]
    omega
  · simp only [Block.region]
    omega

/-- The block of a buffer, as the memory has it. -/
theorem own_block (ran : Ran s d) {b : Block} (member : b ∈ d.live) (own : Own bf content b) {p : Nat}
    (ptr : bf.ptr = some p) :
    b = ⟨p,Memory.read s.heap.bytes p bf.siz,bf.level⟩ := by
  obtain rfl : b.addr = p := Option.some.inj (own.ptr.symm.trans ptr)
  have reads := (ran_reads ran).reads b member
  rw [own.siz] at reads
  rw [reads,← own.level]

theorem known_alloc (known : Known s d os) {s' : State} {b : Block} (more : List Block)
    (ran' : Ran s' ⟨d.depth,b :: (more ++ d.live)⟩) (own' : Own bf content b) :
    Known s' ⟨d.depth,b :: (more ++ d.live)⟩ ((bf,content) :: os) := by
  refine ⟨ran',?_,List.pairwise_cons.mpr ⟨?_,known.distinct⟩⟩
  · intro o member
    rcases List.mem_cons.mp member with rfl | member
    · exact ⟨b,List.mem_cons_self,own'⟩
    · obtain ⟨c,live,own⟩ := known.own o member
      exact ⟨c,by simp [live],own⟩
  · intro o member
    obtain ⟨c,live,own⟩ := known.own o member
    exact ptr_ne own' own ((List.pairwise_cons.mp (ran_reads ran').apart).1 c (List.mem_append_right _ live))

theorem known_replaced {left right : List (Buffer × List UInt8)} {bf' : Buffer} {content' : List UInt8}
    {s' : State} {before behind : List Block} {b b' : Block}
    (known : Known s d (left ++ (bf,content) :: right)) (split : d.live = before ++ b :: behind)
    (ptr : bf.ptr = some b.addr) (ran' : Ran s' ⟨d.depth,before ++ b' :: behind⟩) (own' : Own bf' content' b') :
    Known s' ⟨d.depth,before ++ b' :: behind⟩ (left ++ (bf',content') :: right) := by
  obtain ⟨ran,own,distinct⟩ := known
  have symm : ∀ {o o' : Buffer × List UInt8}, o.1.ptr ≠ o'.1.ptr → o'.1.ptr ≠ o.1.ptr := fun ne => ne.symm
  obtain ⟨different,others⟩ := List.pairwise_cons.mp ((List.pairwise_middle symm).mp distinct)
  have kept : ∀ o ∈ left ++ right, ∃ c ∈ before ++ behind, Own o.1 o.2 c := by
    intro o member
    obtain ⟨c,live,ownC⟩ := own o (others_mem member)
    rw [split] at live
    exact ⟨c,(mem_others live).resolve_left (other_block ownC ptr (symm (different o member))),ownC⟩
  refine ⟨ran',?_,(List.pairwise_middle symm).mpr (List.pairwise_cons.mpr ⟨?_,others⟩)⟩
  · intro o member
    rcases mem_others member with rfl | member
    · exact ⟨b',by simp,own'⟩
    · obtain ⟨c,there,ownC⟩ := kept o member
      exact ⟨c,others_mem there,ownC⟩
  · intro o member
    obtain ⟨c,there,ownC⟩ := kept o member
    exact ptr_ne own' ownC ((List.pairwise_cons.mp ((List.pairwise_middle Apart.symm).mp (ran_reads ran').apart)).1
      c there)

theorem works_known (works : Works s d os) : Known s d os := by
  induction works with
  | start ran => exact ⟨ran,by simp,.nil⟩
  | call before allowed fresh run takes spares ih =>
    refine ⟨.call ih.ran allowed fresh run takes,?_,ih.distinct.filter _⟩
    intro o member
    obtain ⟨member,level⟩ := List.mem_filter.mp member
    obtain ⟨b,live,own⟩ := ih.own o member
    exact ⟨b,takes_spares takes live own (spares o member) (by simpa using level),own⟩
  | alloc initSize overshoot before active structFresh fresh positive run ptr ih =>
    rcases alloc_spec ih.ran active structFresh fresh positive _ with
      ⟨bf,s',b,q,run',ran',own',level,_⟩ | ⟨s',run',_⟩ | ⟨e,run',_⟩
    · rw [run] at run'
      cases run'
      have block := own_block ran' List.mem_cons_self own' ptr
      rw [level] at block
      subst block
      exact known_alloc ih [_] ran' own'
    · rw [run] at run'; cases run'
    · rw [run] at run'; cases run'
  | @op s s' d d' left right bf bf' content room failed o before innermost active fresh run takes ih =>
    obtain ⟨first,b,rest,p,split,ptr,siz,ptr',rfl⟩ := takes
    obtain ⟨c,live,ownC⟩ := ih.own (bf,content) (by simp)
    have own : Own bf content b := by
      have positive := ownC.positive
      have sizC := ownC.siz
      simp only at positive sizC
      have addr : b.addr = c.addr := Option.some.inj (ptr.symm.trans ownC.ptr)
      rwa [same_block ih.ran (b := b) (c := c) (by rw [split]; simp) live addr (by omega) (by omega)]
    have ran : Ran s ⟨d.depth,first ++ b :: rest⟩ := by rw [← split]; exact ih.ran
    rcases op_spec ran own fresh innermost active o with ⟨failed',bf1,s1,b',run',ran',own',level,_⟩ | ⟨e,run',_⟩
    · rw [run] at run'
      cases run'
      have block := own_block ran' (by simp) own' ptr'
      rw [level,innermost] at block
      subst block
      exact known_replaced ih split ptr ran' own'
    · rw [run] at run'; cases run'
  | release before ih =>
    refine ⟨ih.ran,fun o member => ih.own o (others_mem member),?_⟩
    exact ih.distinct.sublist (by simp)

/-- In every run of a program with buffers in an arena, each buffer has the bytes that
    were put into it and not taken away, whatever happens to the other buffers and blocks:
    they are in the memory, inside of an allocation and apart from the other buffers. And
    any operation on a buffer whose scope is the innermost one does what it means, fails
    only where the buffer would become too large, or ends the program because the arena
    refuses its block the room; it never accesses other memory. -/
theorem works_sound (works : Works s d os) :
    (∀ o ∈ os, ∃ p, o.1.ptr = some p ∧ Memory.read s.heap.bytes p o.1.len = o.2 ∧ o.1.len ≤ o.1.siz ∧
      ∃ q ∈ s.heap.regions, q.Covers ⟨p,o.1.siz⟩) ∧
    (os.Pairwise fun o o' => ∀ p p', o.1.ptr = some p → o'.1.ptr = some p' → Apart ⟨p,o.1.siz⟩ ⟨p',o'.1.siz⟩) ∧
    ∀ o ∈ os, o.1.level = d.depth → 0 < d.depth → ∀ (op : Op) (room : Room), RoomFresh s.heap room →
      (∃ failed bf' s' p, op.run s o.1 room = .ok (failed,bf',s') ∧ bf'.ptr = some p ∧
        Memory.read s'.heap.bytes p bf'.len = (if failed then o.2 else op.content o.2) ∧
          (failed = true → 2^31 ≤ o.1.len+op.size)) ∨
      ∃ e, op.run s o.1 room = .error e ∧ Stops s o.1 op.size room e := by
  have known := works_known works
  refine ⟨?_,?_,?_⟩
  · intro o member
    obtain ⟨b,live,own⟩ := known.own o member
    obtain ⟨slots,holds⟩ := ran_holds known.ran
    obtain ⟨q,region,covers⟩ := holds.covered live
    refine ⟨b.addr,own.ptr,own_read known.ran live own,own.len,q,region,?_⟩
    rwa [Block.region,own.siz] at covers
  · refine known.distinct.imp_of_mem fun {o o'} member member' different p p' ptr ptr' => ?_
    obtain ⟨b,live,own⟩ := known.own o member
    obtain ⟨c,live',own'⟩ := known.own o' member'
    obtain rfl : b.addr = p := Option.some.inj (own.ptr.symm.trans ptr)
    obtain rfl : c.addr = p' := Option.some.inj (own'.ptr.symm.trans ptr')
    have : Std.Symm fun b c : Block => Apart b.region c.region := ⟨fun _ _ apart => apart.symm⟩
    have apart := (ran_reads known.ran).apart.forall live live' (other_block own ptr' different)
    rwa [Block.region,Block.region,own.siz,own'.siz] at apart
  · intro o member innermost active op room fresh
    obtain ⟨b,live,own⟩ := known.own o member
    obtain ⟨first,rest,split⟩ := List.append_of_mem live
    have ran : Ran s ⟨d.depth,first ++ b :: rest⟩ := by rw [← split]; exact known.ran
    rcases op_spec ran own fresh innermost active op with ⟨failed,bf',s',b',run,ran',own',_,small⟩ | ended
    · exact .inl ⟨failed,bf',s',b'.addr,run,own'.ptr,own_read ran' (by simp) own',small⟩
    · exact .inr ended

end

/-! ## Files -/

section
variable {s : State} {depth : Nat} {before behind : List Block} {b : Block} {bf : Buffer}
  {content : List UInt8} {room : Room}

/-- A turn of the loop takes the bytes that were read. It makes room for more unless it
    must not, or an eighth of the size is nothing. -/
theorem readTurn_spec (ran : Ran s ⟨depth,before ++ b :: behind⟩) (own : Own bf content b)
    (innermost : bf.level = depth) (active : 0 < depth) {bs : List UInt8} (fits : bs.length ≤ bf.siz-bf.len)
    (fresh : ∀ s', bufferWrite s bf bs = .ok s' → RoomFresh s'.heap room) (doreserve : Bool) :
    (∃ bf' s' b', readTurn doreserve s bf bs room = .ok (false,bf',s') ∧ Ran s' ⟨depth,before ++ b' :: behind⟩ ∧
      Own bf' (content ++ bs) b' ∧ bf'.level = depth ∧ bf.siz ≤ bf'.siz ∧
        (doreserve = true → 8 ≤ bf.siz → bf'.len < bf'.siz) ∧
      (doreserve = false ∨ bf.siz < 8 → bf'.siz = bf.siz) ∧ bf'.siz ≤ max bf.siz (3*bf'.len) ∧ Backed s s') ∨
    (∃ bf' s', readTurn doreserve s bf bs room = .ok (true,bf',s') ∧ 2^63 < bf.len+bs.length+bf.siz/8) ∨
    ∃ e, readTurn doreserve s bf bs room = .error e ∧ Lacks s (3*(bf.len+bs.length)) [room] e := by
  have siz := own.siz
  have len := own.len
  obtain ⟨s1,b1,wrote,ran1,own1,written⟩ := write_spec ran own bs [] (by rw [List.append_nil]; omega)
  rw [List.append_nil] at wrote
  simp only [readTurn,wrote]
  cases doreserve with
  | false => exact .inl ⟨_,s1,b1,rfl,ran1,own1,innermost,Nat.le_refl _,nofun,fun _ => rfl,
      Nat.le_max_left _ _,written⟩
  | true =>
    rcases reserve_spec ran1 own1 (fresh _ wrote) innermost active (bf.siz/8) with
      ⟨run,large⟩ | ⟨bf2,s2,b2,run,ran2,own2,len2,level2,more,larger,stays,most,backed⟩ | ⟨e,run,less,n,doubled,ended⟩
    · exact .inr (.inl ⟨_,s1,run,large⟩)
    · simp only at len2 more larger stays most
      refine .inl ⟨bf2,s2,b2,run,ran2,own2,level2.trans innermost,larger,fun _ enough => by omega,
        fun small => stays ?_,?_,written.trans backed⟩
      · have little : bf.siz < 8 := small.resolve_left (by simp)
        omega
      · rw [len2]
        omega
    · refine .inr (.inr ⟨e,run,s1,written,n,?_,room,by simp,ended.1⟩)
      have twice := doubled.less less
      simp only at less twice
      omega

/-- The loop reads the whole file if it makes room, and otherwise as much as there is room
    for. -/
theorem bufferReadFd_spec {doreserve : Bool} {answers : List (Option Nat × Room)} {file : List UInt8}
    (ran : Ran s ⟨depth,before ++ b :: behind⟩) (own : Own bf content b) (innermost : bf.level = depth)
    (active : 0 < depth) (answered : Answers doreserve answers s bf file)
    (open_ : doreserve = true → 8 ≤ bf.siz → bf.len < bf.siz) {most : Nat} (small : bf.siz ≤ most)
    (enough : 3*(bf.len+file.length) ≤ most) :
    (∃ bf' s' b', bufferReadFd doreserve answers s bf file = .ok (some false,bf',s') ∧
      Ran s' ⟨depth,before ++ b' :: behind⟩ ∧
      Own bf' (content ++ if doreserve = true ∧ 8 ≤ bf.siz then file else file.take (bf.siz-bf.len)) b') ∨
    (∃ bf' s', bufferReadFd doreserve answers s bf file = .ok (some true,bf',s') ∧
      2^63 < bf.len+file.length+most/8) ∨
    ∃ e, bufferReadFd doreserve answers s bf file = .error e ∧ Lacks s most (answers.map Prod.snd) e := by
  induction answers generalizing s b bf content file with
  | nil => exact answered.elim
  | cons answer answers ih =>
    obtain ⟨n,room⟩ := answer
    cases n with
    | none => exact answered.elim
    | some n =>
      obtain ⟨fits,there,ends,later⟩ := answered
      rw [bufferReadFd]
      by_cases zero : n = 0
      · rw [if_pos zero]
        have whole : (if doreserve = true ∧ 8 ≤ bf.siz then file else file.take (bf.siz-bf.len)) = [] := by
          rcases ends zero with full | none
          · rw [if_neg fun grows => by have := open_ grows.1 grows.2; omega,Nat.sub_eq_zero_of_le full,List.take_zero]
          · simp [none]
        rw [whole,List.append_nil]
        exact .inl ⟨bf,s,b,rfl,ran,own⟩
      · rw [if_neg zero]
        obtain ⟨fresh,later⟩ := later (Nat.pos_of_ne_zero zero)
        have length : (file.take n).length = n := by rw [List.length_take]; omega
        have left : (file.drop n).length = file.length-n := List.length_drop
        rcases readTurn_spec ran own innermost active (by rw [length]; exact fits) fresh doreserve with
          ⟨bf1,s1,b1,turn,ran1,own1,level1,larger,grows,stays,small1,backed⟩ | ⟨bf1,s1,turn,large⟩ |
            ⟨e,turn,s1,backed,size,fits1,room1,member,refused⟩
        · have len1 : bf1.len = bf.len+n := by rw [← own1.length,List.length_append,own.length,length]
          have again : doreserve = true → 8 ≤ bf1.siz → bf1.len < bf1.siz := by
            intro yes enough
            by_cases little : bf.siz < 8
            · have same := stays (.inr little)
              omega
            · exact grows yes (by omega)
          rw [turn]
          rcases ih ran1 own1 level1 (later _ _ turn) again (by omega) (by omega) with
            ⟨bf',s',b',run,ran',own'⟩ | ⟨bf',s',run,large⟩ | ⟨e,run,s2,onwards,size,fits2,room1,member,refused⟩
          · refine .inl ⟨bf',s',b',run,ran',?_⟩
            rw [List.append_assoc] at own'
            by_cases more : doreserve = true ∧ 8 ≤ bf.siz
            · rw [if_pos ⟨more.1,by omega⟩,List.take_append_drop] at own'
              rw [if_pos more]
              exact own'
            · have same : bf1.siz = bf.siz := by
                apply stays
                cases doreserve with
                | false => exact .inl rfl
                | true => exact .inr (by simpa using more)
              rw [same,if_neg more,← List.take_add,len1,show n+(bf.siz-(bf.len+n)) = bf.siz-bf.len by omega] at own'
              rw [if_neg more]
              exact own'
          · exact .inr (.inl ⟨bf',s',run,by omega⟩)
          · exact .inr (.inr ⟨e,run,s2,backed.trans onwards,size,fits2,room1,List.mem_cons_of_mem _ member,refused⟩)
        · rw [turn]
          exact .inr (.inl ⟨bf1,s1,rfl,by omega⟩)
        · rw [turn]
          exact .inr (.inr ⟨e,rfl,s1,backed,size,by omega,room1,by rw [List.mem_singleton.mp member]; simp,refused⟩)

/-- The size that `arena_buffer_read` takes a file to have. -/
def firstSize (size : Nat) : Nat := if size = 0 then 1024 else size

/-- That is the size of the first block of its buffer. -/
theorem firstSize_asked (size : Nat) :
    (if size = 0 then growFrameSize (firstSize size) 16 else some (firstSize size)) = some (firstSize size) := by
  split_ifs with unknown
  · simp [firstSize,unknown,growFrameSize]
  · rfl

/-- However `read` answers, `arena_buffer_read` ends with the whole file if the size it
    takes it to have is not the one found the second time and is eight bytes at least, as
    less does not grow by an eighth; and otherwise with as much of the file as that size
    says. It fails only for a file of more than 2^62 bytes, and ends the program only where
    the arena refuses it a block that is not larger than three times the file or what was
    asked for at first. -/
theorem read_whole {d : Blocks} (size again : Nat) {structRoom : Room}
    {answers : List (Option Nat × Room)} {file : List UInt8}
    (sized : size < 2^63) (ran : Ran s d) (active : 0 < d.depth) (structFresh : RoomFresh s.heap structRoom)
    (fresh : ∀ out s1, call s (.calloc 0 1 bufferStruct structRoom) = .ok (out,s1) → RoomFresh s1.heap room)
    (answered : ∀ q bf1 s1, bufferAlloc s d.depth (firstSize size) (size = 0) structRoom room = .ok (some (q,bf1),s1) →
      Answers (again ≠ firstSize size) answers s1 bf1 file) :
    (∃ bf' s' p, arenaBufferRead s d.depth size again structRoom room answers file = .ok (some false,bf',s') ∧
      bf'.ptr = some p ∧
      Memory.read s'.heap.bytes p bf'.len = if again ≠ firstSize size ∧ 8 ≤ firstSize size then file
        else file.take (firstSize size)) ∨
    (∃ bf' s', arenaBufferRead s d.depth size again structRoom room answers file = .ok (some true,bf',s') ∧
      2^62 < file.length) ∨
    ∃ e, arenaBufferRead s d.depth size again structRoom room answers file = .error e ∧
      Lacks s (max bufferStruct (max (firstSize size) (3*file.length)))
        (structRoom :: room :: answers.map Prod.snd) e := by
  have positive : 0 < firstSize size := by unfold firstSize; split_ifs <;> omega
  unfold arenaBufferRead
  rcases alloc_spec ran active structFresh fresh positive (decide (size = 0)) with
    ⟨bf,s1,b,q,run,ran1,own,level,siz,backed⟩ | ⟨s1,_,large⟩ | ⟨e,run,s1,backed,n,fits,room1,member,refused⟩
  · have len : bf.len = 0 := own.length.symm
    replace siz : bf.siz = firstSize size := by
      simp only [decide_eq_true_eq,firstSize_asked,Option.some.injEq] at siz
      exact siz.symm
    have answers_ := answered _ _ _ run
    rw [firstSize] at run
    rw [run]
    simp only [len,siz,Nat.sub_zero]
    have open_ : decide (again ≠ firstSize size) = true → 8 ≤ bf.siz → bf.len < bf.siz := fun _ _ => by omega
    have small : bf.siz ≤ max (firstSize size) (3*file.length) := by omega
    rcases bufferReadFd_spec (show Ran s1 ⟨d.depth,[] ++ b :: _⟩ from ran1) own level active answers_ open_ small
        (by omega) with
      ⟨bf',s',b',read,ran',own'⟩ | ⟨bf',s',read,large⟩ | ⟨e,read,s2,onwards,n,fits,room1,member,refused⟩
    · refine .inl ⟨bf',s',b'.addr,read,own'.ptr,(own_read ran' (by simp) own').trans ?_⟩
      rw [siz,len]
      simp
    · refine .inr (.inl ⟨bf',s',read,?_⟩)
      have first : firstSize size < 2^63 := by unfold firstSize; split_ifs <;> omega
      omega
    · exact .inr (.inr ⟨e,read,s2,backed.trans onwards,n,Nat.le_trans fits (Nat.le_max_right _ _),room1,
        by simp [member],refused⟩)
  · have small : firstSize size ≤ 2^63 := by unfold firstSize; split_ifs <;> omega
    omega
  · rw [firstSize] at run
    rw [run]
    refine .inr (.inr ⟨e,rfl,s1,backed,n,?_,room1,?_,refused⟩)
    · simp only [decide_eq_true_eq,firstSize_asked,Option.getD_some] at fits
      omega
    · simp only [List.mem_cons,List.not_mem_nil,or_false] at member
      rcases member with rfl | rfl <;> simp

end

/-! ## Two buffers -/

def twenty : List UInt8 := [1,2,3,4,5,6,7,8,9,10,11,12,13,14,15,16,17,18,19,20]

/-- Two buffers of sixteen bytes. Three bytes are put into the second one, and then twenty
    into the first one, which has to move. -/
theorem works_sound_two : ∃ s d bf bf' p p', Works s d [(bf',[104,105,33]),(bf,twenty)] ∧
    bf.ptr = some p ∧ Memory.read s.heap.bytes p bf.len = twenty ∧ bf.siz = 32 ∧
    bf'.ptr = some p' ∧ Memory.read s.heap.bytes p' bf'.len = [104,105,33] ∧ bf'.siz = 16 ∧ Apart ⟨p',16⟩ ⟨p,32⟩ := by
  have first := Works.alloc 16 false (.start entered_ran) Nat.one_pos (noRoom_fresh _)
    (fun _ _ _ => noRoom_fresh _) (by decide) rfl rfl
  have second := Works.alloc 16 false first Nat.one_pos (noRoom_fresh _)
    (fun _ _ _ => noRoom_fresh _) (by decide) rfl rfl
  have three := Works.op [] [(_,[])] (.puts [104,105,33]) second rfl Nat.one_pos (noRoom_fresh _) rfl
    ⟨[],_,_,_,rfl,rfl,rfl,rfl,rfl⟩
  have works := Works.op [(_,[104,105,33])] [] (.puts twenty) three rfl Nat.one_pos (noRoom_fresh _)
    (by with_unfolding_all rfl) (by exact ⟨[_,_],_,_,_,rfl,rfl,rfl,rfl,rfl⟩)
  obtain ⟨contents,apart,_⟩ := works_sound works
  obtain ⟨p,ptr,reads,_⟩ := contents _ (List.mem_cons_of_mem _ List.mem_cons_self)
  obtain ⟨p',ptr',reads',_⟩ := contents _ List.mem_cons_self
  exact ⟨_,_,_,_,p,p',works,ptr,reads,rfl,ptr',reads',rfl,
    (List.pairwise_cons.mp apart).1 _ List.mem_cons_self p' p ptr' ptr⟩

/-- A file that has grown from eight to nine bytes meanwhile, and what `read` answers. -/
def grownFile : List UInt8 := [1,2,3,4,5,6,7,8,9]

def grownAnswers : List (Option Nat × Room) := [(some 8,noRoom),(some 1,noRoom),(some 0,noRoom)]

/-- It is read as a whole, for which the buffer grows. -/
theorem read_whole_grown :
    ∃ bf s p, arenaBufferRead sampleEntered 1 8 9 noRoom noRoom grownAnswers grownFile = .ok (some false,bf,s) ∧
    bf.ptr = some p ∧ Memory.read s.heap.bytes p bf.len = grownFile ∧ bf.siz = 16 := by
  have answered : ∀ q bf1 s1, bufferAlloc sampleEntered 1 (firstSize 8) (8 = 0) noRoom noRoom = .ok (some (q,bf1),s1) →
      Answers (9 ≠ firstSize 8) grownAnswers s1 bf1 grownFile := by
    intro q bf1 s1 run
    cases run
    refine ⟨by decide,by decide,nofun,fun _ => ⟨fun _ _ => noRoom_fresh _,?_⟩⟩
    intro bf2 s2 turn
    have values := turn.symm.trans (by with_unfolding_all rfl : _ = Except.ok (false,_,_))
    cases values
    exact ⟨by decide,by decide,nofun,fun _ =>
      ⟨fun _ _ => noRoom_fresh _,fun _ _ _ => ⟨Nat.zero_le _,Nat.zero_le _,fun _ => .inr rfl,nofun⟩⟩⟩
  obtain ⟨bf,s,run,siz⟩ : ∃ bf s,
      arenaBufferRead sampleEntered 1 8 9 noRoom noRoom grownAnswers grownFile = .ok (some false,bf,s) ∧
      bf.siz = 16 := ⟨_,_,by with_unfolding_all rfl,by rfl⟩
  rcases read_whole 8 9 (by decide) entered_ran Nat.one_pos (noRoom_fresh _) (fun _ _ _ => noRoom_fresh _) answered with
    ⟨bf',s',p,run',ptr,reads⟩ | ⟨_,_,run',_⟩ | ⟨_,run',_⟩
  · cases run.symm.trans run'
    exact ⟨bf,s,p,run,ptr,reads,siz⟩
  · cases run.symm.trans run'
  · cases run.symm.trans run'

end Robsd.Buffers
