import PugPretty.Pattern.Escape

/-!
# Reading classes

A class in brackets holds characters, ranges, escapes, classes with names and other classes, and
operations of sets between them. With the class goes its depth: how deep brackets, operations and
lists of members are nested in it.
-/

namespace PugPretty

/-! ## Members -/

def readMember (f : PatternFlags) : Text → Option (Escaped × Text)
  | [] => none
  | '\\' :: r => readEscape f r
  | c :: r => some (.char c, r)

def charRange? (f : PatternFlags) (lo hi : Char) : Option CharClass :=
  if lo ≤ hi ∧ (f.ascii = false ∨ hi.toNat < 128) then some (.range lo hi) else none

/-- One member of a class or a range of them. A hyphen before the closing bracket or before another
hyphen makes no range. -/
def readRange (f : PatternFlags) (t : Text) : Option (CharClass × Text) := do
  let (a, r) ← readMember f t
  let rest := f.skip r
  let upper := match rest with
    | '-' :: u => if f.peek? u == some ']' || f.peek? u == some '-' then none else some (f.skip u)
    | _ => none
  match upper, a with
  | none, .char c => return (← charRange? f c c, rest)
  | none, .class c => return (c, rest)
  | some u, .char lo =>
    let (b, r) ← readMember f u
    match b with
    | .char hi => return (← charRange? f lo hi, r)
    | _ => none
  | _, _ => none

/-- A class with a name, after the bracket that opens it inside another class. There is no such class
if the outer option is `none`, and it is not allowed if the inner one is. -/
def readNamedClass? (f : PatternFlags) : Text → Option (Option CharClass × Text)
  | ':' :: t =>
    let negated := t.head? == some '^'
    let t := if negated then t.tail else t
    match t.dropWhile (· != ':') with
    | ':' :: ']' :: r =>
      (CharClass.ofName? (t.takeWhile (· != ':'))).map fun c =>
        (if negated then f.complement? (f.fold c) else some (f.fold c), r)
    | _ => none
  | _ => none

/-! ## Operands -/

/-- What has been read of an operand: the set, the number of its members and the depth of the deepest
one. -/
structure Operand where
  chars : CharClass := .nothing
  members : Nat := 0
  deepest : Nat := 0
deriving Repr

namespace Operand

def add (c : CharClass) (depth : Nat) (o : Operand) : Operand :=
  ⟨.union o.chars c, o.members + 1, max o.deepest depth⟩

/-- A list of members is one level of its own. -/
def depth (o : Operand) : Nat := if o.members ≤ 1 then o.deepest else o.deepest + 1

end Operand

inductive SetOp where
  | inter
  | diff
  | symmDiff
deriving DecidableEq, Repr

def SetOp.apply (f : PatternFlags) (op : SetOp) (a b : CharClass) : CharClass :=
  match op with
  | inter => .inter (f.fold a) (f.fold b)
  | diff => .diff (f.fold a) (f.fold b)
  | symmDiff => .symmDiff (f.fold a) (f.fold b)

abbrev PendingOp := SetOp × CharClass × Nat

def Operand.complete (f : PatternFlags) (o : Operand) : Option PendingOp → CharClass × Nat
  | none => (o.chars, o.depth)
  | some (op, a, depth) => (op.apply f a o.chars, max depth o.depth + 1)

/-! ## Classes -/

/-- What stands at the front of a class before its members: whether it is negated, and the hyphens
or the bracket that are literal there. -/
def readClassFront (f : PatternFlags) (t : Text) : Bool × Operand × Text :=
  let t := f.skip t
  let negated := t.head? == some '^'
  let t := if negated then f.skip t.tail else t
  match f.takeWhile (· == '-') t.length t with
  | ([], ']' :: r) => (negated, Operand.add (.single ']') 0 {}, r)
  | (hyphens, r) => (negated, hyphens.foldl (fun o c => o.add (.single c) 0) {}, r)

/-- Reads the members of a class up to its closing bracket. The result holds the depth of the class. -/
def readClass (f : PatternFlags) : Nat → Bool → Option PendingOp → Operand → Text →
    Option (CharClass × Nat × Text)
  | 0, _, _, _, _ => none
  | n + 1, negated, pending, o, t =>
    let next (op : SetOp) (r : Text) :=
      readClass f n negated (some (op, o.complete f pending)) {} r
    let add (c : CharClass) (depth : Nat) (r : Text) :=
      readClass f n negated pending (o.add c depth) r
    match f.skip t with
    | [] => none
    | ']' :: r =>
      let (c, depth) := o.complete f pending
      let c := f.fold c
      (if negated then f.complement? c else some c).map (·, depth + 1, r)
    | '&' :: '&' :: r => next .inter r
    | '-' :: '-' :: r => next .diff r
    | '~' :: '~' :: r => next .symmDiff r
    | '[' :: r =>
      match readNamedClass? f r with
      | some (some c, r) => add c 0 r
      | some (none, _) => none
      | none =>
        let (inner, front, r) := readClassFront f r
        match readClass f n inner none front r with
        | some (c, depth, r) => add c depth r
        | none => none
    | t =>
      match readRange f t with
      | some (c, r) => add c 0 r
      | none => none

end PugPretty
