import Mathlib.Data.Int.Basic
import Mathlib.Data.List.Basic
import Mathlib.Tactic.Common

/-!
Resolving the dots of a path.

`_resolvedPath` removes the components `.` and `..` of a path in place: it
walks over a buffer of characters with one index, moves what is behind a
removed component to the front, and lowers the end of the text. It is called
for paths of URLs, with leading `..` components stripped or kept, and for
paths of files, where one trailing delimiter is taken away at the end.

The text between the start of the buffer and its end is a list of
characters. The end is an integer beside it, as one branch of the code
moves it in front of the start of the buffer.

What the function is for is said over components. A path is the list of its
components, the pieces between two delimiters. Walking over them, `.` is
dropped, and `..` takes away the last component that has been kept, unless
there is none, or it is `..` itself, or it is the empty component in front
of the first delimiter of an absolute path. At the end of a path a removed
component leaves its delimiter behind.
-/

namespace Hexley.Cf

abbrev UniChar := UInt16

def dot : UniChar := 0x2E

def slash : UniChar := 0x2F

/-! ### The code -/

/-- `lastDelim`: the start of the component that ends in front of the
position `n`. -/
def lastDelim (path : List UniChar) (pathDelimiter : UniChar) : ℕ → ℕ
  | 0 => 0
  | n + 1 =>
    if path[n]? = some pathDelimiter then n + 1 else lastDelim path pathDelimiter n

/-- The text that the function returns, and the length that it returns with
it. -/
structure Resolved where
  text : List UniChar
  length : ℤ
  deriving DecidableEq

def Resolved.whole (text : List UniChar) : Resolved := ⟨text, text.length⟩

/-- A turn of the loop either goes on at an index, or leaves the loop. -/
inductive Turn
  | next (path : List UniChar) (idx : ℕ)
  | leave (result : Resolved)
  deriving DecidableEq

variable (path : List UniChar)

def advance (pathDelimiter : UniChar) (idx : ℕ) : Turn :=
  .next path (idx + ((path.drop idx).takeWhile (· ≠ pathDelimiter)).length + 1)

/-- The component at `idx` is `..` and the component in front of it starts
at `start`. -/
def compactOut (pathDelimiter : UniChar) (idx start : ℕ) : Turn :=
  if start ≠ idx ∧ (idx - start ≠ 3 ∨ path[start]? ≠ some dot ∨ path[start + 1]? ≠ some dot) then
    -- a genuine component to compact out
    if idx + 2 ≠ path.length then .next (path.take start ++ path.drop (idx + 3)) start
    else if start ≠ 0 then .leave (.whole (path.take start))
    else .leave (.whole [dot, slash, 0])
  else advance path pathDelimiter idx

/-- The component at `idx` is `..` and there is nothing in front of it that
it could take away. -/
def leadingDotDot (pathDelimiter : UniChar) (stripLeadingDotDots : Bool) (idx : ℕ) : Turn :=
  if stripLeadingDotDots then
    if idx + 3 ≠ path.length then
      -- the end is lowered by three; if there are only two characters left,
      -- it comes to lie in front of the index
      if idx + 2 = path.length then .leave ⟨path.take (idx - 1), (idx : ℤ) - 1⟩
      else .next (path.take idx ++ path.drop (idx + 3)) idx
    else .leave (.whole path)
  else advance path pathDelimiter idx

variable (pathDelimiter : UniChar)

def turn (stripLeadingDotDots : Bool) (path : List UniChar) (idx : ℕ) :
    Turn :=
  if path[idx]? = some dot then
    if idx + 1 = path.length then
      .leave (.whole (if idx ≠ 0 then path.take idx else path))
    else if path[idx + 1]? = some pathDelimiter then
      if idx + 2 ≠ path.length ∨ idx ≠ 0 then .next (path.take idx ++ path.drop (idx + 2)) idx
      else .leave (.whole path)
    else if path[idx + 1]? = some dot
        ∧ (idx + 2 = path.length ∨ path[idx + 2]? = some pathDelimiter) then
      if 2 ≤ idx then
        compactOut path pathDelimiter idx (lastDelim path pathDelimiter (idx - 1))
      else leadingDotDot path pathDelimiter stripLeadingDotDots idx
    else advance path pathDelimiter idx
  else advance path pathDelimiter idx

def resolveLoop (pathDelimiter : UniChar) (stripLeadingDotDots : Bool) :
    ℕ → List UniChar → ℕ → Option Resolved
  | 0, _, _ => none
  | fuel + 1, path, idx =>
    if idx < path.length then
      match turn pathDelimiter stripLeadingDotDots path idx with
      | .next path idx => resolveLoop pathDelimiter stripLeadingDotDots fuel path idx
      | .leave result => some result
    else some (.whole path)

def stripTrailing (r : Resolved) : Resolved :=
  if 1 < r.length ∧ r.text.getLast? = some pathDelimiter then ⟨r.text.dropLast, r.length - 1⟩
  else r

/-- `_resolvedPath`. The loop takes at most one turn for each character and
one more. -/
def resolvedPath (stripLeadingDotDots stripTrailingDelimiter : Bool)
    (path : List UniChar) : Option Resolved :=
  (resolveLoop pathDelimiter stripLeadingDotDots (path.length + 1) path 0).map fun r =>
    if stripTrailingDelimiter then stripTrailing pathDelimiter r else r

/-! ### What it is for -/

variable (strip : Bool) (kept : List (List UniChar)) (c : List UniChar)

/-- The component `..` takes away the last component of `kept`. -/
def Cancels : Prop :=
  kept ≠ [] ∧ kept ≠ [[]] ∧ kept.getLast? ≠ some [dot, dot]

instance (kept : List (List UniChar)) : Decidable (Cancels kept) :=
  inferInstanceAs (Decidable (_ ∧ _ ∧ _))

/-- The components that are kept, after one more component. -/
def keep : List (List UniChar) :=
  if c = [dot] then kept
  else if c = [dot, dot] then
    if Cancels kept then kept.dropLast else if strip then kept else kept ++ [c]
  else kept ++ [c]

/-- All components, after the last one. If it is removed it leaves an empty
component, so that the delimiter in front of it stays. -/
def keepLast : List (List UniChar) :=
  if c = [dot] then kept ++ [[]]
  else if c = [dot, dot] then
    if Cancels kept then kept.dropLast ++ [[]]
    else if strip then kept ++ [[]] else kept ++ [c]
  else kept ++ [c]

def removeDots (strip : Bool) : List (List UniChar) → List (List UniChar) → List (List UniChar)
  | kept, [] => kept
  | kept, [c] => keepLast strip kept c
  | kept, c :: cs => removeDots strip (keep strip kept c) cs

def dotFree (path : List UniChar) : List UniChar :=
  [pathDelimiter].intercalate (removeDots strip [] (path.splitOn pathDelimiter))

def dotFreeStripped (strip trailing : Bool) (path : List UniChar) : List UniChar :=
  if trailing then (stripTrailing pathDelimiter (.whole (dotFree pathDelimiter strip path))).text
  else dotFree pathDelimiter strip path

/-- The function returns a part of the path, which is the path without its
dot components, except that a sole component may stay as `.` or `./`, and
which it returns again when it is given it. -/
def ResolvesDots (strip trailing : Bool) (path : List UniChar) : Prop :=
  ∃ r, resolvedPath pathDelimiter strip trailing path = some (.whole r) ∧ r.Sublist path ∧
    (r = dotFreeStripped pathDelimiter strip trailing path ∨
      dotFreeStripped pathDelimiter strip trailing path = [] ∧
        (r = [dot] ∨ r = [dot, pathDelimiter])) ∧
    resolvedPath pathDelimiter strip trailing r = some (.whole r)

/-- The delimiters and flags with which the function is called: from
`CFURLCopyAbsoluteURL`, from `resolveAbsoluteURLString`, and from
`_resolveFileSystemPaths` with the delimiter `/`, `:` or `\` of the style. -/
inductive Called : UniChar → Bool → Bool → Prop
  | copyAbsoluteURL : Called slash true false
  | resolveAbsoluteURLString : Called slash false false
  | posixPath : Called slash false true
  | hfsPath : Called 0x3A false true
  | windowsPath : Called 0x5C false true

end Hexley.Cf
