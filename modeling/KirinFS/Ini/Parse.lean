import KirinFS.Foundation.CString

/-! # Parsing and searching ini texts

The line buffer is edited in place through `head`, so a cursor carries the
offset of `head` in the buffer with the string from there on. Writing past the
arrays of sections and items is undefined.
-/

namespace KirinFS.Ini
open Foundation.CString

def maxLineLen : ℕ := 4096
def sectionMaxItemSize : ℕ := 4096
def sectionMaxSize : ℕ := 4096

/-- `sizeof(section) - 1` and `sizeof(key) - 1`. -/
def nameSize : ℕ := 255

structure StlIniItem where
  key : Str
  val : Str
  deriving DecidableEq, Repr

structure StlIniSection where
  name : Str
  items : List StlIniItem
  deriving DecidableEq, Repr

/-- The used part of the section array. -/
structure StlIni where
  sections : List StlIniSection
  deriving DecidableEq, Repr

def sameName (stored wanted : Str) : Bool := decide (strncmp wanted.length stored wanted = 0)

def stlIniSectionPutConf (sis : StlIniSection) (key value : Str) : Option StlIniSection :=
  if sis.items.length < sectionMaxItemSize then
    some { sis with items := sis.items ++ [⟨key, value⟩] }
  else none

/-- The section loop of `stl_ini_on_item_func`, which does not stop at a match. -/
def lastSame (wanted : Str) : (i : ℕ) → (found : Option ℕ) → List StlIniSection → Option ℕ
  | _, found, [] => found
  | i, found, s :: l => lastSame wanted (i + 1) (if sameName s.name wanted then some i else found) l

/-- `stl_ini_on_item_func`; its result is always 0. -/
def stlIniOnItemFunc (ini : StlIni) (name key value : Str) : Option StlIni :=
  match lastSame name 0 none ini.sections with
  | some i =>
    (ini.sections[i]?).bind fun s =>
      (stlIniSectionPutConf s key value).map fun s => ⟨ini.sections.set i s⟩
  | none =>
    if ini.sections.length < sectionMaxSize then
      (stlIniSectionPutConf ⟨name, []⟩ key value).map fun s => ⟨ini.sections ++ [s]⟩
    else none

structure Cursor where
  off : ℕ
  str : Str

def trimSpace (head : Cursor) : Cursor :=
  ⟨head.off + (head.str.takeWhile isspace).length, trimmed head.str⟩

/-- What `str` holds after `trim_space(str)` with the result ignored. -/
def trimInPlace (str : Str) : Str := str.takeWhile isspace ++ trimmed str

/-- The loop of `trim_comment`: a comment starts after a blank. -/
def cutComment : Str → Str
  | [] => []
  | c :: s =>
    if c = chr ' ' ∧ (s.head? = some (chr ';') ∨ s.head? = some (chr '#')) then [c]
    else c :: cutComment s

def trimComment (str : Str) : Str :=
  if str = [] ∨ str.head? = some (chr ';') ∨ str.head? = some (chr '#') then []
  else cutComment str

def trimBom (head : Cursor) : Cursor :=
  if 3 ≤ head.str.length ∧ head.str.take 3 = [0xEF, 0xBB, 0xBF] then
    ⟨head.off + 3, head.str.drop 3⟩
  else head

/-- The local variables of `stl_ini_parse` between two lines, with the ini it fills. -/
structure ParseState where
  ini : StlIni
  line : BitVec 32
  sectionName : Str
  key : Str

/-- The loop body of `stl_ini_parse` on a line; a second component ends the loop. -/
def parseLine (st : ParseState) (buf : Str) : Option (ParseState × Option ℤ) :=
  let line := st.line + 1
  let head : Cursor := if line = 1 then trimBom ⟨0, buf⟩ else ⟨0, buf⟩
  let head := trimSpace ⟨head.off, trimComment head.str⟩
  let st := { st with line := line }
  if head.str = [] then some (st, none)
  else if 0 < head.off ∧ st.key ≠ [] then
    (stlIniOnItemFunc st.ini st.sectionName st.key head.str).map fun ini =>
      ({ st with ini := ini }, none)
  else if head.str.head? = some (chr '[') then
    match cutAt (fun c => c = chr ']') head.str with
    | none => some (st, some line.toInt)
    | some (s, _) => some ({ st with key := [], sectionName := (s.drop 1).take nameSize }, none)
  else
    match cutAt (fun c => c = chr '=' || c = chr ':') head.str with
    | none => some (st, some line.toInt)
    | some (k, v) =>
      let k := trimInPlace k
      (stlIniOnItemFunc st.ini st.sectionName k (trimmed v)).map fun ini =>
        ({ st with ini := ini, key := k.take nameSize }, none)

/-- The loop of `stl_ini_parse` over the lines that `nextLine` delivers. -/
def stlIniParse {S : Type} (nextLine : S → ℕ → Option (Str × S)) :
    (fuel : ℕ) → ParseState → S → Option (StlIni × ℤ)
  | 0, _, _ => none
  | fuel + 1, st, s =>
    match nextLine s (maxLineLen - 1) with
    | none => some (st.ini, 0)
    | some (buf, s) =>
      (parseLine st buf).bind fun r =>
        match r.2 with
        | some rc => some (r.1.ini, rc)
        | none => stlIniParse nextLine fuel r.1 s

/-- `stl_ini_string_line`: the line and the pointer it leaves, which is null behind the last line
without a line end. -/
def stlIniStringLine (p : Option Str) (size : ℕ) : Option (Str × Option Str) :=
  match p with
  | none => none
  | some [] => none
  | some (c :: s) =>
    match cutAt (fun c => c = chr '\n') (c :: s) with
    | some (l, rest) => some (l.take size, some rest)
    | none => some ((c :: s).take size, none)

def stlIniParseString (ini : StlIni) (str : Str) : Option (StlIni × ℤ) :=
  stlIniParse stlIniStringLine (str.length + 1) ⟨ini, 0, [], []⟩ (some str)

/-- `stl_ini_search`: the first matching item of the last matching section that has one. -/
def stlIniSearch (ini : StlIni) (name key : Str) : Option Str :=
  ini.sections.foldl (fun value s =>
    if sameName s.name name then
      match s.items.find? fun x => sameName x.key key with
      | some x => some x.val
      | none => value
    else value) none

end KirinFS.Ini
