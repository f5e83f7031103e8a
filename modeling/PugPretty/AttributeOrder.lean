import PugPretty.Options
import PugPretty.Token

/-!
# The order of attributes

Attributes are ordered by name in three zones: the names that match a leading pattern, all others,
and the names that match a trailing pattern. Inside an outer zone a name stands where its first
pattern stands. `compare` orders names, and `arrange` sorts every run of attributes in a stream and
leaves all other tokens where they are.
-/

namespace PugPretty

/-! ## Zones -/

inductive Zone where
  | leading (pattern : Nat)
  | middle
  | trailing (pattern : Nat)
deriving DecidableEq, Repr

namespace Zone

def rank : Zone → Nat
  | leading _ => 0
  | middle => 1
  | trailing _ => 2

def place : Zone → Nat
  | leading i => i
  | middle => 0
  | trailing i => i

def compare (a b : Zone) : Ordering :=
  (Ord.compare a.rank b.rank).then (Ord.compare a.place b.place)

end Zone

/-! ## Comparing names -/

/-- How names are ordered. A pattern is the set of names it matches. -/
structure AttributeOrder where
  mode : NameOrder := .asIs
  leading : List (String → Bool) := []
  trailing : List (String → Bool) := []

namespace AttributeOrder

/-- The zone of a name that matches patterns of both kinds is the leading one. -/
def zone (ord : AttributeOrder) (name : String) : Zone :=
  match ord.leading.findIdx? (· name), ord.trailing.findIdx? (· name) with
  | some i, _ => .leading i
  | none, some i => .trailing i
  | none, none => .middle

def compareMiddle (mode : NameOrder) (a b : String) : Ordering :=
  match mode with
  | .asIs => .eq
  | .ascending => Ord.compare a b
  | .descending => Ord.compare b a

abbrev Key := Zone × String

def key (ord : AttributeOrder) (name : String) : Key := (ord.zone name, name)

def Key.compare (mode : NameOrder) : Key → Key → Ordering
  | (.middle, a), (.middle, b) => compareMiddle mode a b
  | (x, _), (y, _) => x.compare y

def compare (ord : AttributeOrder) (a b : String) : Ordering :=
  (ord.key a).compare ord.mode (ord.key b)

def isNoop (ord : AttributeOrder) : Bool :=
  ord.mode == .asIs && ord.leading.isEmpty && ord.trailing.isEmpty

end AttributeOrder

/-! ## Sorting -/

def insertBy {α : Type} (lt : α → α → Bool) (a : α) : List α → List α
  | [] => [a]
  | b :: r => if lt b a then b :: insertBy lt a r else a :: b :: r

/-- Sorts a list; elements of which neither is less keep their order. -/
def sortBy {α : Type} (lt : α → α → Bool) (as : List α) : List α := as.foldr (insertBy lt) []

namespace AttributeOrder

def sort (ord : AttributeOrder) (names : List String) : List String :=
  (sortBy (fun a b => a.compare ord.mode b == .lt) (names.map ord.key)).map (·.2)

def keyed (ord : AttributeOrder) (t : Token) : Option Key × Token :=
  match t.kind with
  | .attr a => (some (ord.key a.name), t)
  | _ => (none, t)

/-- Only attributes are ordered, so that no token moves past one that is no attribute. -/
def lessKeyed (mode : NameOrder) (s t : Option Key × Token) : Bool :=
  match s.1, t.1 with
  | some a, some b => a.compare mode b == .lt
  | _, _ => false

/-- The stream with every run of attributes sorted. -/
def arrange (ord : AttributeOrder) (ts : List Token) : List Token :=
  if ord.isNoop then ts else (sortBy (lessKeyed ord.mode) (ts.map ord.keyed)).map (·.2)

example : sort { mode := .descending, leading := [(· == "x")], trailing := [(· == "b")] }
    ["a", "b", "c", "x"] = ["x", "c", "a", "b"] := by decide

end AttributeOrder

/-! ## Patterns -/

/-- Reads the text of a pattern: the names in which it is found, or why it is no pattern. -/
abbrev PatternReader := String → Except String (String → Bool)

/-- The text to be read for a pattern that has to match a whole name. -/
def wholePattern (pattern : String) : String := "^(?:" ++ pattern ++ ")$"

def AttributeOrder.ofPatterns (read : PatternReader) (mode : NameOrder)
    (leading trailing : List String) : Except String AttributeOrder := do
  let leading ← leading.mapM fun p => read (wholePattern p)
  let trailing ← trailing.mapM fun p => read (wholePattern p)
  return { mode, leading, trailing }

/-- Reads the patterns that match one word, and refuses all others. -/
def wordReader : PatternReader := fun p =>
  let word := (p.toList.drop 4).dropLast.dropLast
  if p = wholePattern (String.ofList word) ∧ word.all Char.isAlphanum then
    .ok fun name => name.toList == word
  else .error "not a whole word"

example : (AttributeOrder.ofPatterns wordReader .asIs ["b"] []).toOption.map
    (·.sort ["a", "b", "ab"]) = some ["b", "a", "ab"] := by decide +kernel

end PugPretty
