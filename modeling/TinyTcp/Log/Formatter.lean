/-
TinyTcp.Log.Formatter — `LogFormatter::init` of `src/log.cc`, which cuts a
pattern into format items.

A `std::string` is the list of its bytes. The scanner walks the pattern
with two indices `i` and `n`; here an index is the suffix that starts
there, and the characters between `i + 1` and `n` are collected on the way
(`taken`). The outer loop is `initLoop`, the inner one is `scanName` while
`fmt_status` is 0 and `scanFormat` while it is 1. `vec` holds the triples
(text, format, type) of the first pass, and `makeItem` is the second pass.

`init` terminates on every pattern: `scanName` never gives back more than
it got (`scanName_length`), which is what `initLoop` recurses on. The outer
loop also speaks on the console, about every `{` that stays open; what it
says does not depend on what it collects, and is `initMessages`.
-/
import Mathlib.Data.List.Basic

namespace TinyTcp.Log

/-! ## Bytes -/

/-- `std::string` -/
abbrev Str := List UInt8

def ch (c : Char) : UInt8 := UInt8.ofNat c.toNat

def str (s : String) : Str := s.toList.map ch

/-- `isalpha` in the C locale. -/
def isalpha (c : UInt8) : Bool :=
  (ch 'a' ≤ c && c ≤ ch 'z') || (ch 'A' ≤ c && c ≤ ch 'Z')

/-! ## Format items -/

/-- The classes behind the letters of `s_format_items`. -/
inductive ItemClass where
  | message
  | level
  | elapse
  | name
  | threadId
  | newLine
  | dateTime
  | filename
  | line
  | tab
  | threadName
  deriving DecidableEq

/-- `s_format_items` -/
def formatItems : List (Str × ItemClass) :=
  [(str "m", .message), (str "p", .level), (str "r", .elapse), (str "c", .name),
    (str "t", .threadId), (str "n", .newLine), (str "d", .dateTime), (str "f", .filename),
    (str "l", .line), (str "T", .tab), (str "N", .threadName)]

/-- An item of `m_items`: a `StringFormatterItem`, or an object of another
class and the format its constructor got. -/
inductive FormatItem where
  | string (s : Str)
  | made (cls : ItemClass) (fmt : Str)
  deriving DecidableEq

/-- An element of `vec`: text, format and type. -/
structure Triple where
  str : Str
  fmt : Str
  type : Nat
  deriving DecidableEq

structure LogFormatter where
  pattern : Str
  items : List FormatItem
  error : Bool
  deriving DecidableEq

/-! ## The first pass -/

/-- How the inner loop ends: with a directive and the suffix behind it, or
at the end of the pattern with `fmt_status` 1. -/
inductive Scan where
  | directive (str fmt rest : Str)
  | unclosed
  deriving DecidableEq

/-- The inner loop behind a `{`; `taken` are the characters since. -/
def scanFormat (str taken : Str) : Str → Scan
  | [] => .unclosed
  | c :: p => if c = ch '}' then .directive str taken p else scanFormat str (taken ++ [c]) p

/-- The inner loop in front of a `{`; `taken` are the characters since the `%`. -/
def scanName (taken : Str) : Str → Scan
  -- the loop is entered at the end of the pattern, and `str` stays empty
  | [] => .directive [] [] []
  | c :: p =>
      if ¬isalpha c ∧ c ≠ ch '{' ∧ c ≠ ch '}' then .directive taken [] (c :: p)
      else if c = ch '{' then scanFormat taken [] p
      else if p = [] then .directive (taken ++ [c]) [] []
      else scanName (taken ++ [c]) p

theorem scanFormat_length {str fmt rest : Str} : ∀ {p taken name : Str},
    scanFormat name taken p = .directive str fmt rest → rest.length ≤ p.length
  | [], _, _, h => by simp [scanFormat] at h
  | c :: p, taken, name, h => by
    unfold scanFormat at h
    split at h
    · cases h
      simp
    · have := scanFormat_length h
      simp only [List.length_cons]
      omega

theorem scanName_length {str fmt rest : Str} : ∀ {p taken : Str},
    scanName taken p = .directive str fmt rest → rest.length ≤ p.length
  | [], _, h => by
    simp only [scanName, Scan.directive.injEq] at h
    simp [← h.2.2]
  | c :: p, taken, h => by
    unfold scanName at h
    split at h
    · cases h
      exact Nat.le_refl _
    · split at h
      · have := scanFormat_length h
        simp only [List.length_cons]
        omega
      · split at h
        · cases h
          exact Nat.zero_le _
        · have := scanName_length h
          simp only [List.length_cons]
          omega

/-- The pending literal goes to `vec`. -/
def flush (vec : List Triple) (nstr : Str) : List Triple :=
  if nstr = [] then vec else vec ++ [⟨nstr, [], 0⟩]

/-- The outer loop, and the flush behind it: `vec` and `m_error`. -/
def initLoop (nstr : Str) (vec : List Triple) (error : Bool) : Str → List Triple × Bool
  | [] => (flush vec nstr, error)
  | c :: p =>
      if c ≠ ch '%' then initLoop (nstr ++ [c]) vec error p
      -- the second `%` is not skipped
      else if p.head? = some (ch '%') then initLoop (nstr ++ [ch '%']) vec error p
      else
        match h : scanName [] p with
        | .directive str fmt rest =>
            have := scanName_length h
            initLoop [] (flush vec nstr ++ [⟨str, fmt, 1⟩]) error rest
        | .unclosed => initLoop nstr (vec ++ [⟨str "<<pattern-error>>", [], 0⟩]) true p
  termination_by p => p.length

/-- What the outer loop writes to `std::cout`. -/
def initMessages (pattern : Str) : Str → Str
  | [] => []
  | c :: p =>
      if c ≠ ch '%' then initMessages pattern p
      else if p.head? = some (ch '%') then initMessages pattern p
      else
        match h : scanName [] p with
        | .directive _ _ rest =>
            have := scanName_length h
            initMessages pattern rest
        | .unclosed =>
            str "pattern parse error: " ++ pattern ++ str " - " ++ c :: p ++ str "\n" ++ initMessages pattern p
  termination_by p => p.length

/-! ## The second pass -/

/-- The item of a triple, and whether it sets `m_error`. -/
def makeItem (i : Triple) : FormatItem × Bool :=
  if i.type = 0 then (.string i.str, false)
  else
    match formatItems.lookup i.str with
    | none => (.string (str "<<error_format %" ++ i.str ++ str ">>"), true)
    | some cls => (.made cls i.fmt, false)

def makeItems (pattern : Str) (vec : List Triple) (error : Bool) : LogFormatter where
  pattern := pattern
  items := vec.map fun i => (makeItem i).1
  error := error || vec.any fun i => (makeItem i).2

/-- The constructor, which calls `init`. -/
def LogFormatter.create (pattern : Str) : LogFormatter :=
  makeItems pattern (initLoop [] [] false pattern).1 (initLoop [] [] false pattern).2

/-- What the constructor says on the console. -/
def LogFormatter.messages (pattern : Str) : Str := initMessages pattern pattern

/-- The pattern of a new logger. -/
def defaultPattern : Str := str "%d\x7b%Y-%m-%d %H:%M:%S\x7d%T[%t %N]%T%T[%p]%T[%c]%T%f:%l%T%m%T%n"

end TinyTcp.Log
