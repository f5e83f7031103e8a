/-!
# Relations between gaps

A text with `n` characters has `n + 1` gaps. A set of gaps is a number whose bits tell which gaps are
in it, and a relation has such a set for every gap: the gaps it is related to. Composition stays
cheap in this form, and so do powers and closures, which are found by squaring.
-/

namespace PugPretty

abbrev GapSet := Nat

/-- For every gap, in order, the set of the gaps it is related to. -/
abbrev Relation := List GapSet

namespace Relation

def identity (n : Nat) : Relation := (List.range n).map fun i => 1 <<< i

def union (a b : Relation) : Relation := a.zipWith (· ||| ·) b

def image : Relation → GapSet → GapSet
  | [], _ => 0
  | t :: b, s => if s = 0 then 0 else if s % 2 = 1 then t ||| image b (s / 2) else image b (s / 2)

def comp (a b : Relation) : Relation := a.map b.image

/-- `comp` with itself `n` times; the fuel has to exceed the number of binary digits of `n`. -/
def powerFuel (a : Relation) : Nat → Nat → Relation
  | 0, _ => identity a.length
  | fuel + 1, n =>
    if n = 0 then identity a.length
    else
      let half := powerFuel a fuel (n / 2)
      if n % 2 = 1 then (half.comp half).comp a else half.comp half

def power (a : Relation) (n : Nat) : Relation := a.powerFuel (n.log2 + 2) n

def saturate : Nat → Relation → Relation
  | 0, a => a
  | fuel + 1, a =>
    let b := a.comp a
    if b = a then a else saturate fuel b

/-- Any number of times. Twice as many steps with every squaring are soon more than there are gaps. -/
def closure (a : Relation) : Relation := saturate a.length ((identity a.length).union a)

def isInhabited (a : Relation) : Bool := a.any (· != 0)

example : comp [0b010, 0b100, 0b000] [0b010, 0b100, 0b000] = [0b100, 0, 0] := by decide

example : closure [0b010, 0b100, 0b000] = [0b111, 0b110, 0b100] := by decide

example : power [0b010, 0b100, 0b000] 2 = [0b100, 0, 0] := by decide

end Relation

end PugPretty
