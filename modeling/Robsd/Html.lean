import Robsd.Markup

/-!
The writer of html.c: nodes are entered and left, and what is written depends on how
deep it stands. What is written by properly nested nodes is a printed forest (`Writes`).
-/
namespace Robsd.Html
open Robsd.Strings
open Robsd.Markup

/-- `struct html`. -/
structure Writer where
  bf : Str := []
  depth : Nat := 0
  deriving DecidableEq

def Writer.printf (html : Writer) (s : Str) : Writer := { html with bf := html.bf ++ s }

/-- The loop of `html_indent`. -/
def indentTimes : Nat → Writer → Writer
  | 0, html => html
  | i+1, html => indentTimes i (html.printf "  ".toList)

def htmlIndent (html : Writer) : Writer := indentTimes html.depth html

def htmlNodeEnter (type : Str) (attrs : List (Str × Str)) (html : Writer) : Writer :=
  let html := { htmlIndent html with depth := html.depth+1 }
  let html := html.printf ('<' :: type)
  let html := attrs.foldl (fun html attr => html.printf
    (" ".toList ++ attr.1 ++ "=\"".toList ++ attr.2 ++ "\"".toList)) html
  html.printf ">\n".toList

/-- `html_node_leave`, with no result where its assertion fails. -/
def htmlNodeLeave (type : Str) (html : Writer) : Option Writer :=
  if 0 < html.depth then
    let html := htmlIndent { html with depth := html.depth-1 }
    some (html.printf ("</".toList ++ type ++ ">\n".toList))
  else none

def htmlText (s : Str) (html : Writer) : Option Writer := some ((htmlIndent html).printf (s ++ ['\n']))

/-- `HTML_NODE` and `HTML_NODE_ATTR`. The loop behind them has one turn, as
    `html_node_enter` returns 1 and `html_node_leave` returns 0. -/
def htmlNode (type : Str) (attrs : List (Str × Str)) (body : Writer → Option Writer) (html : Writer) : Option Writer :=
  (body (htmlNodeEnter type attrs html)).bind (htmlNodeLeave type)

/-- Two statements. -/
def andThen (first second : Writer → Option Writer) (html : Writer) : Option Writer := (first html).bind second

/-- A loop over a vector. -/
def forEach {α : Type} (body : α → Writer → Option Writer) : List α → Writer → Option Writer
  | [] => some
  | x :: xs => andThen (body x) (forEach body xs)

def headStart : List String :=
  ["<!doctype html>",
   "<html lang=\"en\">",
   "<head>",
   "  <meta charset=\"utf-8\">",
   "  <style>",
   "    table \x7b border-spacing: 0; \x7d",
   "    thead \x7b background: #fff; position: sticky; top: 0; \x7d",
   "    td, th \x7b border: #fff 1px solid; \x7d",
   "    th \x7b font-weight: normal; text-align: left; \x7d",
   "    td.PASS \x7b background: #80ff80; \x7d",
   "    td.FAIL \x7b background: #ff8080; \x7d",
   "    td.XFAIL \x7b background: #80ffc0; \x7d",
   "    td.XPASS \x7b background: #ff80c0; \x7d",
   "    td.SKIP \x7b background: #8080ff; \x7d",
   "    td.NOTERM \x7b background: #ffff80; \x7d",
   "    a.status \x7b color: #000; \x7d",
   "  </style>"]

def headEnd : List String := ["</head>","<body>"]

def bodyEnd : List String := ["</body>","</html>"]

/-- Lines of the source, as they are written. -/
def constant (texts : List String) : Str := unlines (texts.map String.toList)

def htmlHeadEnter (html : Writer) : Writer :=
  { htmlIndent html with depth := html.depth+1 }.printf (constant headStart)

/-- `html_head_leave`. The depth is not checked here, and what an indent at a depth
    below zero does is left open. -/
def htmlHeadLeave (html : Writer) : Option Writer :=
  if 0 < html.depth then some ((htmlIndent { html with depth := html.depth-1 }).printf (constant headEnd))
  else none

/-- `HTML_HEAD`. -/
def htmlHead (body : Writer → Option Writer) (html : Writer) : Option Writer :=
  (body (htmlHeadEnter html)).bind htmlHeadLeave

/-- What `html_write` writes to the file. -/
def htmlWrite (html : Writer) : Str := (html.printf (constant bodyEnd)).bf

/-! ## A page -/

/-- The text of a page with a title and a body. -/
def pageText (title body : Forest) : Str :=
  constant headStart ++ print 1 title ++ constant headEnd ++ print 0 body ++ constant bodyEnd

/-- The lines behind expected ones. -/
def strip (expected : List String) (ls : List Str) : Option (List Str) :=
  if ls.take expected.length = expected.map String.toList then some (ls.drop expected.length) else none

/-- The title and the body of a page. -/
def readPage (text : Str) : Option (Forest × Forest) := do
  let ls ← strip headStart (splitLines text)
  let (title,ls) ← readForest (ls.length+1) 1 ls
  let ls ← strip headEnd ls
  let (body,ls) ← readForest (ls.length+1) 0 ls
  if ls = bodyEnd.map String.toList then some (title,body) else none

theorem strip_append (expected : List String) (ls : List Str) :
    strip expected (expected.map String.toList ++ ls) = some ls := by
  have length : (expected.map String.toList).length = expected.length := List.length_map _
  rw [strip,← length,List.take_left,List.drop_left,if_pos rfl]

/-- A page is read as it was written. -/
theorem readPage_pageText {title body : Forest} (plainTitle : Plain title) (plainBody : Plain body) :
    readPage (pageText title body) = some (title,body) := by
  have whole : pageText title body =
    unlines (headStart.map String.toList ++ (lines 1 title ++ (headEnd.map String.toList ++
      (lines 0 body ++ bodyEnd.map String.toList)))) := by
    simp only [pageText,constant,print,unlines_append,List.append_assoc]
  have constants : ∀ texts ∈ [headStart,headEnd,bodyEnd], ∀ l ∈ texts.map String.toList, '\n' ∉ l := by
    simp [headStart,headEnd,bodyEnd]
  have single : ∀ l ∈ headStart.map String.toList ++ (lines 1 title ++ (headEnd.map String.toList ++
      (lines 0 body ++ bodyEnd.map String.toList))), '\n' ∉ l := by
    intro l member
    simp only [List.mem_append] at member
    rcases member with first | title | second | body | last
    · exact constants headStart (by simp) l first
    · exact lines_single plainTitle 1 l title
    · exact constants headEnd (by simp) l second
    · exact lines_single plainBody 0 l body
    · exact constants bodyEnd (by simp) l last
  have head : Stops 1 (headEnd.map String.toList ++ (lines 0 body ++ bodyEnd.map String.toList)) :=
    fun level => absurd level (by decide)
  have tail : Stops 0 (bodyEnd.map String.toList) := fun _ => ⟨_,rfl⟩
  have many := lines_length 1 title
  have more := lines_length 0 body
  rw [readPage,whole,splitLines_unlines single,strip_append]
  simp only [Option.bind_eq_bind,Option.bind_some]
  rw [readForest_lines plainTitle head (by simp only [List.length_append]; omega)]
  simp only [Option.bind_some,strip_append]
  rw [readForest_lines plainBody tail (by simp only [List.length_append]; omega)]
  rfl

/-! ## What is written -/

/-- What a body writes is a forest printed at the depth it begins with, and the depth
    is the same after it. There is no result where there is no forest. -/
def Writes (body : Writer → Option Writer) (forest : Option Forest) : Prop :=
  ∀ html, body html = forest.map fun f => ⟨html.bf ++ print html.depth f,html.depth⟩

@[simp] theorem printf_depth (html : Writer) (s : Str) : (html.printf s).depth = html.depth := rfl

@[simp] theorem printf_bf (html : Writer) (s : Str) : (html.printf s).bf = html.bf ++ s := rfl

@[simp] theorem indentTimes_eq (i : Nat) (html : Writer) : indentTimes i html = html.printf (indent i) := by
  induction i generalizing html with
  | zero => simp [indentTimes,Writer.printf,indent]
  | succ i ih => simp [indentTimes,ih,Writer.printf,indent]

@[simp] theorem htmlIndent_eq (html : Writer) : htmlIndent html = html.printf (indent html.depth) := indentTimes_eq _ _

theorem printf_attrs (attrs : List (Str × Str)) (html : Writer) :
    attrs.foldl (fun html attr => html.printf (" ".toList ++ attr.1 ++ "=\"".toList ++ attr.2 ++ "\"".toList)) html =
      html.printf (attrs.flatMap attr) := by
  induction attrs generalizing html with
  | nil => simp [Writer.printf]
  | cons a attrs ih =>
    rw [List.foldl_cons,ih]
    simp [Writer.printf,attr]

theorem htmlNodeEnter_eq (type : Str) (attrs : List (Str × Str)) (html : Writer) :
    htmlNodeEnter type attrs html = ⟨html.bf ++ (indent html.depth ++ openTag type attrs ++ ['\n']),html.depth+1⟩ := by
  simp only [htmlNodeEnter,printf_attrs]
  simp [Writer.printf,openTag]

theorem htmlNodeLeave_eq (type bf : Str) (depth : Nat) :
    htmlNodeLeave type ⟨bf,depth+1⟩ = some ⟨bf ++ (indent depth ++ closeTag type ++ ['\n']),depth⟩ := by
  simp [htmlNodeLeave,Writer.printf,closeTag]

theorem writes_nothing : Writes some (some .nil) := by
  intro html
  simp [print,lines]

theorem writes_text (s : Str) : Writes (htmlText s) (some (.leaf s)) := by
  intro html
  simp [htmlText,Writer.printf,print,lines,Forest.leaf]

theorem writes_node {body : Writer → Option Writer} {forest : Option Forest} (type : Str) (attrs : List (Str × Str))
    (inner : Writes body forest) : Writes (htmlNode type attrs body) (forest.map (.node type attrs)) := by
  intro html
  rw [htmlNode,inner,htmlNodeEnter_eq]
  cases forest with
  | none => rfl
  | some f =>
    simp only [Option.map_some,Option.bind_some,htmlNodeLeave_eq,Forest.node,print,lines,unlines_cons,
      unlines_append,unlines_nil]
    simp only [List.append_assoc,List.cons_append,List.nil_append]

theorem writes_seq {first second : Writer → Option Writer} {forest later : Option Forest} (begins : Writes first forest)
    (ends : Writes second later) :
    Writes (andThen first second) (forest.bind fun f => later.map f.append) := by
  intro html
  rw [andThen,begins]
  cases forest with
  | none => rfl
  | some f =>
    rw [Option.map_some,Option.bind_some,ends]
    cases later with
    | none => rfl
    | some g => simp

/-- A loop writes what its turns write. -/
theorem writes_forEach {α : Type} {body : α → Writer → Option Writer} {forest : α → Option Forest}
    (turn : ∀ x, Writes (body x) (forest x)) (xs : List α) :
    Writes (forEach body xs) ((xs.mapM forest).map Forest.concat) := by
  induction xs with
  | nil => exact writes_nothing
  | cons x xs ih =>
    have whole := writes_seq (turn x) ih
    intro html
    rw [forEach,whole]
    simp only [List.mapM_cons]
    cases forest x with
    | none => rfl
    | some f =>
      cases xs.mapM forest with
      | none => rfl
      | some fs => rfl

theorem indented_printf (html : Writer) (depth : Nat) (s : Str) :
    Writer.printf { htmlIndent html with depth } s = ⟨html.bf ++ (indent html.depth ++ s),depth⟩ := by
  simp [Writer.printf]

theorem htmlHeadEnter_eq : htmlHeadEnter {} = ⟨constant headStart,1⟩ := by
  have level : indent ({} : Writer).depth = [] := by simp [indent]
  rw [htmlHeadEnter,indented_printf,level,List.nil_append,List.nil_append]

theorem htmlHeadLeave_eq (bf : Str) : htmlHeadLeave ⟨bf,1⟩ = some ⟨bf ++ constant headEnd,0⟩ := by
  rw [htmlHeadLeave,if_pos Nat.one_pos,htmlIndent_eq]
  simp [Writer.printf,indent]

theorem htmlHead_writes {body : Writer → Option Writer} {title : Forest} (inner : Writes body (some title)) :
    htmlHead body {} = some ⟨constant headStart ++ print 1 title ++ constant headEnd,0⟩ := by
  rw [htmlHead,htmlHeadEnter_eq,inner,Option.map_some,Option.bind_some,htmlHeadLeave_eq]

end Robsd.Html
