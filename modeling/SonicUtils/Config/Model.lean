import Mathlib.Data.List.Basic
import Mathlib.Data.List.DropRight
import SonicUtils.Fault
import SonicUtils.Lib.Loop

/-!
# Config files

`std_config_file.cpp`. A `std::string` is a list of bytes and a `std::map` a
`Std.TreeMap`, which is sorted in the same order. Memory does not run out and
the file can be opened, read and written.
-/

namespace SonicUtils.Config

open Loop

abbrev Bytes := List UInt8

/-- An argument of type `const char *`. -/
abbrev CString := { s : Bytes // 0 ∉ s }

abbrev MapOfStrings := Std.TreeMap Bytes Bytes

/-- `cfg_file_data`: the groups, and the keys and values of each. -/
abbrev ConfigFile := Std.TreeMap Bytes MapOfStrings

def newline : UInt8 := 0x0a
def openS : UInt8 := 0x5b
def closeS : UInt8 := 0x5d
def equals : UInt8 := 0x3d

/-! ## Strings -/

/-- In the C locale. -/
def isspace (c : UInt8) : Bool := c == 0x20 || (0x09 ≤ c && c ≤ 0x0d)

def ltrim (s : Bytes) : Bytes := s.dropWhile isspace

def rtrim (s : Bytes) : Bytes := s.rdropWhile isspace

def trim (s : Bytes) : Bytes := ltrim (rtrim s)

/-- `std::string::find`, where `none` is `npos`. -/
def find (s : Bytes) (c : UInt8) : Option Nat := s.idxOf? c

/-- `std::string::substr`. -/
def substr (s : Bytes) (pos : Nat) (len : Option Nat) : Bytes :=
  match len with
  | none => s.drop pos
  | some len => (s.drop pos).take len

/-- `p + 1`, which is 0 for `npos`. -/
def next (p : Option Nat) : Nat := p.elim 0 (· + 1)

/-! ## Loading -/

def set (d : ConfigFile) (group key str : Bytes) : ConfigFile :=
  d.insert group ((d.getD group ∅).insert key str)

def handleSection (section_ : Bytes) : Bytes :=
  let p := find section_ openS
  let last := find section_ closeS
  -- The caller has found `[` at 0 and a `]`, so that nothing wraps around here.
  substr section_ (next p) (last.map (· - next p))

def handleKeyfield (line section_ : Bytes) (d : ConfigFile) : ConfigFile :=
  let len := find line equals
  let key := substr line 0 len
  let value := substr line (next len) none
  set d section_ (trim key) (trim value)

def buffLen : Nat := 1024

/-- At most `n` bytes of a file, not beyond a newline, and what is left of it. -/
def getLine : Nat → Bytes → Bytes × Bytes
  | 0, file => ([], file)
  | _ + 1, [] => ([], [])
  | n + 1, c :: file =>
    if c = newline then ([c], file) else ((c :: (getLine n file).1), (getLine n file).2)

/-- `fgets`, where `none` is NULL. -/
def fgets (size : Nat) (file : Bytes) : Option (Bytes × Bytes) :=
  match file with
  | [] => none
  | _ :: _ => some (getLine (size - 1) file)

/-- A buffer as a string, up to its first NUL. -/
def ofBuffer (line : Bytes) : Bytes := line.takeWhile (· ≠ 0)

/-- The body of the loop of `load_file`, on `section` and the map. -/
def loadLine (s : Bytes × ConfigFile) (line : Bytes) : Bytes × ConfigFile :=
  let data := ofBuffer line
  if find data openS = some 0 ∧ find data closeS ≠ none then (handleSection data, s.2)
  else if find data equals = none then s
  else (s.1, handleKeyfield data s.1 s.2)

/-- What is left of the file, `section` and the map. -/
structure Loading where
  file : Bytes
  state : Bytes × ConfigFile

def loadTurn (l : Loading) : Except Fault (Loading ⊕ ConfigFile) :=
  match fgets buffLen l.file with
  | none => return .inr l.state.2
  | some (line, file) => return .inl ⟨file, loadLine l.state line⟩

/-- `load_file`, into a new map. -/
def loadFile (file : Bytes) (fuel : Nat) : Except Fault ConfigFile :=
  loop .noReturn loadTurn fuel ⟨file, [], ∅⟩

/-! ## Handles -/

/-- `std_config_file_get`. -/
def get (d : ConfigFile) (group key : Bytes) : Option Bytes :=
  match d[group]? with
  | none => none
  | some keys => keys[key]?

/-- The handles of `std_config_file_create` and `std_config_file_set`. -/
inductive Built : ConfigFile → Prop
  | create : Built ∅
  | set {d : ConfigFile} (before : Built d) (group key str : CString) : Built (set d group key str)

def keyLine (entry : Bytes × Bytes) : Bytes := entry.1 ++ equals :: (entry.2 ++ [newline])

def groupLine (group : Bytes) : Bytes := openS :: (group ++ [closeS, newline])

/-- The lines in the order in which `std_config_file_write` writes them. -/
def writtenLines (d : ConfigFile) : List Bytes :=
  d.toList.flatMap fun (group, keys) => groupLine group :: keys.toList.map keyLine

/-- `std_config_file_write`: the file that it leaves. -/
def write (d : ConfigFile) : Bytes := (writtenLines d).flatten

end SonicUtils.Config
