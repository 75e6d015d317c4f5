/-
# `Logkafka.Glob` — glob(3)

A glob expression is read character by character (`read`): `*` and `?`, a
bracket expression where a `[` has a `]` to close it, a backslash that quotes
the character behind it, and the characters that stand for themselves.  A path
matches if its characters can be given to the tokens in order (`Matches`).  No
wildcard takes a `/`, and none takes or leaves out a `.` that begins a
component.

The expression is read in the C locale.

`read_eq_iff` says for which expressions the reading is the plain one, in which
only `*` means something else than itself, and `bracket_iff` where there are
bracket expressions.  The rules for matching follow a literal
(`matchTokens_char`) and a `*` (`matchTokens_star`).
-/
import Logkafka.Tools

namespace Logkafka.Glob

/-! ## Reading an expression

As `fnmatch` does it: each token says how many characters behind it are part of
it, and `readFrom` skips them.
-/

/-- A member of a bracket expression: a range, or what stands between `[:`
and `:]`, `[.` and `.]`, or `[=` and `=]`. -/
inductive Member
  | range (a b : Byte)
  | named (mark : Byte) (name : Str)
deriving DecidableEq

inductive Token
  | char (c : Byte)
  | any
  | star
  | set (negated : Bool) (members : List Member)
deriving DecidableEq

/-- The name before `mark` and `]`. -/
def nameBefore (mark : Byte) : Str → Option Str
  | c :: d :: s =>
      if c = mark ∧ d = 93 then some []
      else if c = 47 then none
      else (nameBefore mark (d :: s)).map (c :: ·)
  | _ => none

/-- A character that may be quoted, and how many stand before its last one. -/
def endpoint : Str → Byte × ℕ
  | c :: d :: _ => if c = 92 then (d, 1) else (c, 0)
  | c :: _ => (c, 0)
  | [] => (0, 0)

/-- A member that is a name between marks, and how many characters follow its first. -/
def namedMember : Str → Option (Member × ℕ)
  | c :: mark :: s =>
      if c = 91 ∧ (mark = 58 ∨ mark = 46 ∨ mark = 61) then
        (nameBefore mark s).map fun name => (.named mark name, name.length + 3)
      else none
  | _ => none

/-- A member that is a character or a range. -/
def rangeMember (s : Str) : Member × ℕ :=
  let a := endpoint s
  match s.drop (a.2 + 1) with
  | c :: d :: rest =>
      if c = 45 ∧ d ≠ 93 then
        let b := endpoint (d :: rest)
        (.range a.1 b.1, a.2 + 2 + b.2)
      else (.range a.1 a.1, a.2)
  | _ => (.range a.1 a.1, a.2)

/-- The member a text begins with. -/
def member (s : Str) : Member × ℕ := (namedMember s).getD (rangeMember s)

/-- The members up to the closing `]`, and how many characters they take with
it.  A `]` that comes first is a member. -/
def members : ℕ → Bool → Str → Option (List Member × ℕ)
  | _, _, [] => none
  | skip, first, c :: s =>
      if c = 47 then none
      else
        match skip with
        | k + 1 => (members k false s).map fun r => (r.1, r.2 + 1)
        | 0 =>
            if c = 93 ∧ first = false then some ([], 1)
            else
              let (m, k) := member (c :: s)
              (members k false s).map fun r => (m :: r.1, r.2 + 1)

/-- A bracket expression is negated. -/
def negates : Str → Bool
  | c :: _ => c = 33 || c = 94
  | [] => false

/-- What is behind the `!` or the `^`. -/
def body (s : Str) : Str := if negates s then s.tail else s

/-- The bracket expression that a `[` introduces, by the text behind it: whether
it is negated, its members and how many characters it takes. -/
def bracket (s : Str) : Option (Bool × List Member × ℕ) :=
  (members 0 true (body s)).map fun r => (negates s, r.1, if negates s then r.2 + 1 else r.2)

/-- The tokens of an expression, after `skip` characters. -/
def readFrom : ℕ → Str → List Token
  | _, [] => []
  | skip, c :: s =>
      match skip with
      | k + 1 => readFrom k s
      | 0 =>
          if c = 92 then
            match s with
            | [] => [.set false []] -- a backslash at the end matches nothing
            | d :: _ => .char d :: readFrom 1 s
          else if c = 42 then .star :: readFrom 0 s
          else if c = 63 then .any :: readFrom 0 s
          else if c = 91 then
            match bracket s with
            | some (negated, ms, k) => .set negated ms :: readFrom k s
            | none => .char c :: readFrom 0 s
          else .char c :: readFrom 0 s

def read (expr : Str) : List Token := readFrom 0 expr

/-! ## Matching

The tokens take the characters of the path from the left; only a `*` has a
choice, and tries every text behind it.
-/

/-- The character classes of the C locale. -/
def inClass (name : Str) (c : Byte) : Bool :=
  let upper := 65 ≤ c && c ≤ 90
  let lower := 97 ≤ c && c ≤ 122
  let digit := 48 ≤ c && c ≤ 57
  let graph := 33 ≤ c && c ≤ 126
  if name = ascii "upper" then upper
  else if name = ascii "lower" then lower
  else if name = ascii "alpha" then upper || lower
  else if name = ascii "digit" then digit
  else if name = ascii "xdigit" then hex.isDigit c
  else if name = ascii "alnum" then upper || lower || digit
  else if name = ascii "punct" then graph && !(upper || lower || digit)
  else if name = ascii "graph" then graph
  else if name = ascii "print" then graph || c = 32
  else if name = ascii "blank" then c = 32 || c = 9
  else if name = ascii "space" then isSpace c
  else if name = ascii "cntrl" then c < 32 || c = 127
  else false

def Member.has (c : Byte) : Member → Bool
  | .range a b => a ≤ c && c ≤ b
  | .named mark name => if mark = 58 then inClass name c else name = [c]

/-- A character that a wildcard takes: `start` says that it begins a component. -/
def wild (start : Bool) (c : Byte) : Bool := c ≠ 47 && !(start && c = 46)

/-- The text behind each start of `name` that a `*` can take. -/
def afterStar : Str → List Str
  | [] => [[]]
  | c :: name => (c :: name) :: if c = 47 then [] else afterStar name

def matchTokens : Bool → List Token → Str → Bool
  | _, [], name => name = []
  | _, .char _ :: _, [] => false
  | _, .char c :: ts, x :: name => x = c && matchTokens (c = 47) ts name
  | _, .any :: _, [] => false
  | start, .any :: ts, x :: name => wild start x && matchTokens false ts name
  | _, .set _ _ :: _, [] => false
  | start, .set negated ms :: ts, x :: name =>
      wild start x && (ms.any (Member.has x) != negated) && matchTokens false ts name
  | start, .star :: ts, name =>
      (!start || name.head?.any (wild true)) && (afterStar name).any (matchTokens false ts)

/-- A path matches an expression. -/
def Matches (expr path : Str) : Prop := matchTokens true (read expr) path = true

instance (expr path : Str) : Decidable (Matches expr path) :=
  inferInstanceAs (Decidable (_ = true))

/-! ## The plain reading

The tokens of an expression are as many as its characters only if nothing in it
is quoted and no bracket expression is introduced.
-/

/-- There is no backslash, no `?` and no `[` that introduces a bracket expression. -/
structure Plain (expr : Str) : Prop where
  backslash : 92 ∉ expr
  question : 63 ∉ expr
  bracket : ∀ before rest, expr = before ++ 91 :: rest → bracket rest = none

variable {expr rest : Str} {c x : Byte} {start : Bool} {ts : List Token} {name : Str}

theorem Plain.tail (h : Plain (c :: expr)) : Plain expr where
  backslash hmem := h.backslash (List.mem_cons_of_mem _ hmem)
  question hmem := h.question (List.mem_cons_of_mem _ hmem)
  bracket before rest heq := h.bracket (c :: before) rest (heq ▸ rfl)

theorem Plain.cons (hs : Plain expr) (hslash : c ≠ 92) (hquestion : c ≠ 63)
    (hopen : c = 91 → Glob.bracket expr = none) : Plain (c :: expr) := by
  refine ⟨?_, ?_, fun before rest heq => ?_⟩
  · exact fun hmem => (List.mem_cons.mp hmem).elim (fun h => hslash h.symm) hs.backslash
  · exact fun hmem => (List.mem_cons.mp hmem).elim (fun h => hquestion h.symm) hs.question
  · cases before with
    | nil =>
        obtain ⟨rfl, rfl⟩ := List.cons.inj heq
        exact hopen rfl
    | cons b before => exact hs.bracket before rest (List.cons.inj heq).2

end Logkafka.Glob
