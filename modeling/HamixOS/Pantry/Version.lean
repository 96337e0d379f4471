import HamixOS.Lib.Text

namespace HamixOS.Pantry

open Lib

/-!
# Versions and dependency tokens (`index.rs`)

The order on version strings, and the tokens that name what a package needs or provides.
-/

inductive Class where
  | preSuffix
  | fin
  | letter
  | postSuffix
  | revision
  | number
  deriving DecidableEq

/-- The place of a class in the derived order. -/
def Class.rank : Class → Nat
  | preSuffix => 0
  | fin => 1
  | letter => 2
  | postSuffix => 3
  | revision => 4
  | number => 5

def i64Max : Nat := 2 ^ 63 - 1

def suffixRank (name : Text) : Class × Nat :=
  if name = "alpha".toList then (.preSuffix, 0)
  else if name = "beta".toList then (.preSuffix, 1)
  else if name = "pre".toList then (.preSuffix, 2)
  else if name = "rc".toList then (.preSuffix, 3)
  else if name = "cvs".toList then (.postSuffix, 0)
  else if name = "svn".toList then (.postSuffix, 1)
  else if name = "git".toList then (.postSuffix, 2)
  else if name = "hg".toList then (.postSuffix, 3)
  else if name = "p".toList then (.postSuffix, 4)
  else (.postSuffix, 5)

structure Token where
  cls : Class
  value : Nat
  digits : Text
  deriving DecidableEq

/-- The loop of `tokens`.  Every round takes at least one character, so `fuel` characters
    need no more rounds. -/
def scanTokens : Nat → Text → List Token
  | 0, _ => []
  | _ + 1, [] => []
  | fuel + 1, c :: rest =>
    if Text.isDigit c then
      let digits := (c :: rest).takeWhile Text.isDigit
      ⟨.number, min (Text.number digits) i64Max, digits⟩ :: scanTokens fuel ((c :: rest).dropWhile Text.isDigit)
    else if c = '_' then
      let r := suffixRank (rest.takeWhile Text.isAlphabetic)
      ⟨r.1, r.2, []⟩ :: scanTokens fuel (rest.dropWhile Text.isAlphabetic)
    else if Text.isAlphabetic c then ⟨.letter, c.toNat, []⟩ :: scanTokens fuel rest
    else scanTokens fuel rest

/-- `tokens`: a trailing `-r` with digits is the revision. -/
def tokens (version : Text) : List Token :=
  match Text.rsplitOnce "-r".toList version with
  | some (m, r) =>
    if r.all Text.isDigit ∧ r ≠ [] then
      scanTokens m.length m ++ [⟨.revision, if Text.number r ≤ i64Max then Text.number r else 0, []⟩]
    else scanTokens version.length version
  | none => scanTokens version.length version

/-- The comparison of two tokens; `after` says whether a number stands right before the left
    one, so that a leading zero counts. -/
def compareToken (after : Bool) (x y : Token) : Ordering :=
  if x.cls ≠ y.cls then compare x.cls.rank y.cls.rank
  else if x.cls = .number ∧ after = true ∧ (x.digits.head? = some '0' ∨ y.digits.head? = some '0') then
    compare x.digits y.digits
  else compare x.value y.value

/-- The token that stands for the end of a version. -/
def endToken : Token := ⟨.fin, 0, []⟩

/-- The loop of `compare_versions`, from place `i` on for `n` rounds. -/
def compareFrom (ta tb : List Token) : Nat → Nat → Ordering
  | 0, _ => .eq
  | n + 1, i =>
    let after := decide (0 < i) && (ta[i - 1]?).any (fun t => t.cls = .number)
    match compareToken after (ta[i]?.getD endToken) (tb[i]?.getD endToken) with
    | .eq => compareFrom ta tb n (i + 1)
    | o => o

def compareVersions (a b : Text) : Ordering :=
  compareFrom (tokens a) (tokens b) (max (tokens a).length (tokens b).length) 0

example : compareVersions "1.10-r2".toList "1.9-r10".toList = .gt := by decide
example : compareVersions "1.0_rc1".toList "1.0".toList = .lt := by decide

/-! ### Dependency tokens -/

structure Dep where
  name : Text
  op : Option (Text × Text)
  conflict : Bool
  deriving DecidableEq

def isOp (c : Char) : Bool := c = '<' ∨ c = '>' ∨ c = '=' ∨ c = '~'

def parseDep (token : Text) : Dep :=
  let conflict := token.head? = some '!'
  let token := if conflict then token.drop 1 else token
  let name := token.takeWhile (fun c => !isOp c)
  let rest := token.dropWhile (fun c => !isOp c)
  ⟨name, if rest = [] then none else some (rest.takeWhile isOp, rest.dropWhile isOp), conflict⟩

/-- `provided_name`: the name a token provides, and the version if it gives one. -/
def providedName (token : Text) : Text × Option Text :=
  match Text.splitOnce '=' token with
  | some (name, version) => (name, some version)
  | none => (token, none)

def Dep.satisfiedBy (dep : Dep) (version : Text) : Bool :=
  match dep.op with
  | none => true
  | some (op, wanted) =>
    let ord := compareVersions version wanted
    if op = "=".toList ∨ op = "==".toList then ord = .eq
    else if op = ">=".toList then ord ≠ .lt
    else if op = "<=".toList then ord ≠ .gt
    else if op = ">".toList then ord = .gt
    else if op = "<".toList then ord = .lt
    else if op = "~".toList ∨ op = "~=".toList then wanted.isPrefixOf version
    else if op = "><".toList ∨ op = "<>".toList then ord ≠ .eq
    else true

/-- `provides_dep`, for a package with this name, version and list of provided tokens. -/
def providesDep (name version : Text) (provides : List Text) (dep : Dep) : Bool :=
  (name = dep.name && dep.satisfiedBy version) ||
    provides.any fun token =>
      let p := providedName token
      decide (p.1 = dep.name) && (dep.op.isNone || p.2.any dep.satisfiedBy)

end HamixOS.Pantry
