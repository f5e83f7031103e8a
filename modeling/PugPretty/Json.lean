/-!
# JSON values

Tokens and options are exchanged as JSON. An object is a list of fields in order; of the fields that
are read none may stand there twice.
-/

namespace PugPretty

inductive Json where
  | null
  | bool (b : Bool)
  /-- The number `mantissa` shifted right by this many decimal places. It is written as an integer
  if there are none. -/
  | number (mantissa : Int) (places : Nat)
  | str (s : String)
  | arr (items : List Json)
  | obj (fields : List (String × Json))
deriving Repr, Inhabited

namespace Json

abbrev Fields := List (String × Json)

def int (i : Int) : Json := number i 0

def nat (n : Nat) : Json := int n

def opt {α : Type} (f : α → Json) : Option α → Json
  | some a => f a
  | none => null

def strs (ss : List String) : Json := arr (ss.map str)

/-! ## Reading values -/

def bool? : Json → Option Bool
  | bool b => some b
  | _ => none

def str? : Json → Option String
  | str s => some s
  | _ => none

def nat? : Json → Option Nat
  | number m 0 => if 0 ≤ m ∧ m < UInt64.size then some m.toNat else none
  | _ => none

def int? : Json → Option Int
  | number m 0 => if Int64.minValue.toInt ≤ m ∧ m ≤ Int64.maxValue.toInt then some m else none
  | _ => none

/-- A choice is given by its name, which may also be the name of the only field of an object if that
field has no value. -/
def choice? : Json → Option String
  | str s => some s
  | obj [(s, null)] => some s
  | obj [(s, obj [])] => some s
  | _ => none

def obj? : Json → Option Fields
  | obj fs => some fs
  | _ => none

def arr? : Json → Option (List Json)
  | arr js => some js
  | _ => none

def strs? (j : Json) : Option (List String) := j.arr?.bind fun js => js.mapM str?

def nullable? {α : Type} (read : Json → Option α) : Json → Option (Option α)
  | null => some none
  | j => (read j).map some

theorem bool?_eq_some_iff {j : Json} {b : Bool} : j.bool? = some b ↔ j = bool b := by
  cases j <;> simp [bool?]

theorem str?_eq_some_iff {j : Json} {s : String} : j.str? = some s ↔ j = str s := by
  cases j <;> simp [str?]

theorem nullable?_str_eq_some_iff {j : Json} {s : Option String} :
    nullable? str? j = some s ↔ j = opt str s := by
  cases j <;> cases s <;> simp [nullable?, str?, opt]

theorem nat?_nat {n : Nat} (h : n < UInt64.size) : (nat n).nat? = some n := by
  simp only [nat, int, nat?]
  rw [if_pos (by omega), Int.toNat_natCast]

theorem lt_of_nat? {j : Json} {n : Nat} (h : j.nat? = some n) : n < UInt64.size := by
  unfold nat? at h
  split at h
  · split at h
    · cases h; omega
    · cases h
  · cases h

/-! ## Choices -/

/-- All values of a choice and their names, of which no two are the same. -/
structure Choice (α : Type) where
  all : List α
  name : α → String
  mem_all : ∀ a, a ∈ all
  name_inj : ∀ a b, name a = name b → a = b

namespace Choice

variable {α : Type} (c : Choice α)

def toJson (a : α) : Json := str (c.name a)

def ofJson? (j : Json) : Option α := j.choice?.bind fun s => c.all.find? (c.name · == s)

theorem find?_name (a : α) : c.all.find? (c.name · == c.name a) = some a := by
  cases h : c.all.find? (c.name · == c.name a) with
  | none => exact absurd (BEq.refl (c.name a)) (List.find?_eq_none.1 h a (c.mem_all a))
  | some b =>
    have hb := List.find?_some h
    exact congrArg some (c.name_inj b a (eq_of_beq hb))

theorem ofJson?_eq_some_iff {j : Json} {a : α} :
    c.ofJson? j = some a ↔ ∃ s, j.choice? = some s ∧ c.toJson a = str s := by
  simp only [ofJson?, Option.bind_eq_some_iff, toJson, str.injEq]
  refine exists_congr fun s => and_congr_right fun _ => ?_
  constructor
  · intro h
    have ha := List.find?_some h
    exact eq_of_beq ha
  · rintro rfl
    exact c.find?_name a

theorem ofJson?_toJson (a : α) : c.ofJson? (c.toJson a) = some a :=
  c.ofJson?_eq_some_iff.2 ⟨c.name a, rfl, rfl⟩

end Choice

/-! ## Reading fields -/

def Fields.values (fs : Fields) (key : String) : List Json :=
  (fs.filter (·.1 == key)).map (·.2)

def Fields.need {α : Type} (fs : Fields) (key : String) (read : Json → Option α) : Option α :=
  match fs.values key with
  | [j] => read j
  | _ => none

def Fields.getD {α : Type} (fs : Fields) (key : String) (read : Json → Option α) (default : α) :
    Option α :=
  match fs.values key with
  | [] => some default
  | [j] => read j
  | _ => none

theorem Fields.need_eq_some_iff {α : Type} {fs : Fields} {key : String} {read : Json → Option α}
    {a : α} : fs.need key read = some a ↔ ∃ j, fs.values key = [j] ∧ read j = some a := by
  unfold Fields.need
  rcases fs.values key with _ | ⟨j, _ | ⟨k, js⟩⟩ <;> simp

theorem Fields.getD_eq_some_iff {α : Type} {fs : Fields} {key : String} {read : Json → Option α}
    {default a : α} : fs.getD key read default = some a ↔
      (∃ j, fs.values key = [j] ∧ read j = some a) ∨ fs.values key = [] ∧ a = default := by
  unfold Fields.getD
  rcases fs.values key with _ | ⟨j, _ | ⟨k, js⟩⟩ <;> simp [eq_comm]

theorem Fields.values_of_mem {fs : Fields} (h : (fs.map (·.1)).Nodup) {p : String × Json}
    (hp : p ∈ fs) : fs.values p.1 = [p.2] := by
  obtain ⟨before, after, rfl⟩ := List.append_of_mem hp
  rw [List.map_append, List.map_cons, List.nodup_append, List.nodup_cons] at h
  have hbefore : before.filter (·.1 == p.1) = [] := by
    rw [List.filter_eq_nil_iff]
    intro q hq he
    exact h.2.2 q.1 (List.mem_map_of_mem hq) p.1 (.head _) (eq_of_beq he)
  have hafter : after.filter (·.1 == p.1) = [] := by
    rw [List.filter_eq_nil_iff]
    intro q hq he
    exact h.2.1.1 (eq_of_beq he ▸ List.mem_map_of_mem hq)
  simp [values, hbefore, hafter]

theorem Fields.values_perm {fs fs' : Fields} (h : fs.Perm fs') (key : String) :
    (fs.values key).Perm (fs'.values key) :=
  (h.filter _).map _

end Json

end PugPretty
