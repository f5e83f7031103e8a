import PugPretty.Proofs.Progress

/-!
# The conversation about embedded code

The requests of a run are those of its edits, whatever is answered (`requests_applyAll`). The failure
that a session remembers is the first one that counts (`failure_applyAll`), and which one that is can
be read off the formatter and the requests alone.
-/

namespace PugPretty

variable {ε : Type}

/-! ## Failures -/

def Request.failure? (r : Request) : Except ε String → Option (ε × String)
  | .ok _ => none
  | .error e => if r.grammar = .statement then none else some (e, r.code)

theorem Request.failure?_eq_some {r : Request} {a : Except ε String} {e : ε} {code : String} :
    r.failure? a = some (e, code) ↔ r.grammar ≠ .statement ∧ a = .error e ∧ code = r.code := by
  cases a with
  | ok t => simp [failure?]
  | error e' =>
    by_cases hg : r.grammar = .statement
    · simp [failure?, hg]
    · simp [failure?, hg, eq_comm]

section
variable (f : Formatter ε)

def failureAt? (rs : List Request) (i : Nat) : Option (ε × String) :=
  rs[i]?.bind fun r => r.failure? (f (rs.take i) r)

def firstFailure? (rs : List Request) : Option (ε × String) :=
  (List.range rs.length).findSome? (failureAt? f rs)

def FailsAt (rs : List Request) (i : Nat) (e : ε) (code : String) : Prop :=
  ∃ r, rs[i]? = some r ∧ r.grammar ≠ .statement ∧ f (rs.take i) r = .error e ∧ code = r.code

theorem failureAt?_eq_some {rs : List Request} {i : Nat} {e : ε} {code : String} :
    failureAt? f rs i = some (e, code) ↔ FailsAt f rs i e code := by
  unfold failureAt? FailsAt
  cases rs[i]? with
  | none => simp
  | some r =>
    rw [Option.bind_some, Request.failure?_eq_some]
    simp

theorem failureAt?_eq_none {rs : List Request} {i : Nat} :
    failureAt? f rs i = none ↔ ∀ e code, ¬ FailsAt f rs i e code := by
  rw [Option.eq_none_iff_forall_ne_some]
  constructor
  · intro h e code hf
    exact h (e, code) ((failureAt?_eq_some f).2 hf)
  · rintro h ⟨e, code⟩ hf
    exact h e code ((failureAt?_eq_some f).1 hf)

theorem failureAt?_append_left {rs : List Request} {i : Nat} (h : i < rs.length)
    (more : List Request) : failureAt? f (rs ++ more) i = failureAt? f rs i := by
  unfold failureAt?
  rw [List.getElem?_append_left h, List.take_append_of_le_length (Nat.le_of_lt h)]

theorem failureAt?_snoc (rs : List Request) (r : Request) :
    failureAt? f (rs ++ [r]) rs.length = r.failure? (f rs r) := by
  simp [failureAt?]

theorem failureAt?_of_le {rs : List Request} {i : Nat} (h : rs.length ≤ i) :
    failureAt? f rs i = none := by
  rw [failureAt?, List.getElem?_eq_none h]; rfl

theorem firstFailure?_snoc (rs : List Request) (r : Request) :
    firstFailure? f (rs ++ [r]) = (firstFailure? f rs).or (r.failure? (f rs r)) := by
  have hc : ∀ n ≤ rs.length, (List.range n).findSome? (failureAt? f (rs ++ [r])) =
      (List.range n).findSome? (failureAt? f rs) := by
    intro n hn
    induction n with
    | zero => rfl
    | succ n ih =>
      simp only [List.range_succ, List.findSome?_append, ih (by omega), List.findSome?_singleton,
        failureAt?_append_left f (show n < rs.length by omega)]
  rw [firstFailure?, List.length_append, List.length_singleton, List.range_succ,
    List.findSome?_append, hc _ (Nat.le_refl _), List.findSome?_singleton, failureAt?_snoc]
  rfl

theorem findSome?_range {α : Type} (g : Nat → Option α) (x : α) (n : Nat) :
    (List.range n).findSome? g = some x ↔ ∃ i < n, g i = some x ∧ ∀ j < i, g j = none := by
  induction n with
  | zero => simp
  | succ n ih =>
    rw [List.range_succ, List.findSome?_append, List.findSome?_singleton]
    constructor
    · intro h
      rcases Option.or_eq_some_iff.1 h with h | ⟨hn, h⟩
      · obtain ⟨i, hi, hg⟩ := ih.1 h
        exact ⟨i, by omega, hg⟩
      · exact ⟨n, by omega, h, fun j hj => List.findSome?_eq_none_iff.1 hn j (List.mem_range.2 hj)⟩
    · rintro ⟨i, hi, hg, hj⟩
      rcases Nat.lt_or_ge i n with h | h
      · rw [ih.2 ⟨i, h, hg, hj⟩]; rfl
      · have : i = n := by omega
        subst this
        rw [List.findSome?_eq_none_iff.2 fun j hm => hj j (List.mem_range.1 hm)]
        exact hg

theorem firstFailure?_eq_some {rs : List Request} {x : ε × String} :
    firstFailure? f rs = some x ↔
      ∃ i, failureAt? f rs i = some x ∧ ∀ j < i, failureAt? f rs j = none := by
  rw [firstFailure?, findSome?_range]
  constructor
  · rintro ⟨i, -, h⟩; exact ⟨i, h⟩
  · rintro ⟨i, hi, hj⟩
    refine ⟨i, ?_, hi, hj⟩
    by_contra hn
    rw [failureAt?_of_le f (by omega)] at hi
    cases hi

theorem firstFailure?_eq_none {rs : List Request} :
    firstFailure? f rs = none ↔ ∀ i, failureAt? f rs i = none := by
  rw [firstFailure?, List.findSome?_eq_none_iff]
  refine ⟨fun h i => ?_, fun h i _ => h i⟩
  rcases Nat.lt_or_ge i rs.length with hi | hi
  · exact h i (List.mem_range.2 hi)
  · exact failureAt?_of_le f hi

end

/-! ## A session keeps its record -/

variable {f : Formatter ε}

theorem Session.resolve_snd (r : Request) (s : Session ε) :
    (s.resolve f r).2 = ⟨s.requests ++ [r], s.failure.or (r.failure? (f s.requests r))⟩ := by
  unfold Session.resolve Session.ask Session.fail
  cases ha : f s.requests r with
  | ok t => cases hg : r.grammar <;> simp [Request.failure?]
  | error e => cases hg : r.grammar <;> simp [Request.failure?, hg]

def Session.Honest (f : Formatter ε) (s : Session ε) : Prop := s.failure = firstFailure? f s.requests

theorem Session.Honest.resolve {s : Session ε} (h : s.Honest f) (r : Request) :
    (s.resolve f r).2.Honest f := by
  rw [Session.resolve_snd, Honest, firstFailure?_snoc, ← h]

namespace Content

theorem requests_resolve (c : Content) (s : Session ε) :
    (c.resolve f s).2.requests = s.requests ++ c.requests := by
  induction c generalizing s with
  | nil => simp [resolve, requests]
  | cons p c ih =>
    cases p with
    | plain t =>
      rw [resolve]
      exact ih s
    | code r =>
      rw [resolve]
      show (resolve f c (s.resolve f r).2).2.requests = _
      rw [ih, Session.resolve_snd, List.append_assoc]; rfl

theorem session_resolve_of_nil (c : Content) (h : c.requests = []) (s : Session ε) :
    (c.resolve f s).2 = s := by
  induction c generalizing s with
  | nil => rfl
  | cons p c ih =>
    cases p with
    | plain t => exact ih h s
    | code r => cases h

theorem honest_resolve (c : Content) {s : Session ε} (h : s.Honest f) :
    (c.resolve f s).2.Honest f := by
  induction c generalizing s with
  | nil => exact h
  | cons p c ih =>
    cases p with
    | plain t => rw [resolve]; exact ih h
    | code r => rw [resolve]; exact ih (h.resolve r)

end Content

/-! ## Runs -/

def requestsOf (es : List Edit) : List Request := es.flatMap Edit.requests

@[simp] theorem requestsOf_nil : requestsOf [] = [] := rfl

@[simp] theorem requestsOf_cons (e : Edit) (es : List Edit) :
    requestsOf (e :: es) = e.requests ++ requestsOf es := List.flatMap_cons

@[simp] theorem requestsOf_append (es fs : List Edit) :
    requestsOf (es ++ fs) = requestsOf es ++ requestsOf fs := List.flatMap_append

variable (page : Page)

def Edit.converse (f : Formatter ε) (e : Edit) (s : Session ε) : Session ε :=
  match e with
  | .write c | .writeInert c => (c.resolve f s).2
  | _ => s

theorem session_apply (e : Edit) (s : Sheet ε) :
    (s.apply page f e).session = e.converse f s.session := by
  cases e <;> rfl

theorem requests_converse (e : Edit) (s : Session ε) :
    (e.converse f s).requests = s.requests ++ e.requests := by
  cases e with
  | write c => exact c.requests_resolve s
  | writeInert c => exact c.requests_resolve s
  | _ => exact (List.append_nil _).symm

theorem honest_converse (e : Edit) {s : Session ε} (h : s.Honest f) : (e.converse f s).Honest f := by
  cases e with
  | write c => exact c.honest_resolve h
  | writeInert c => exact c.honest_resolve h
  | _ => exact h

theorem requests_applyAll (es : List Edit) (s : Sheet ε) :
    (Sheet.applyAll page f es s).session.requests = s.session.requests ++ requestsOf es := by
  induction es generalizing s with
  | nil => simp
  | cons e es ih =>
    rw [Sheet.applyAll_cons, ih, session_apply, requests_converse, requestsOf_cons, List.append_assoc]

theorem honest_applyAll (es : List Edit) {s : Sheet ε} (h : s.session.Honest f) :
    (Sheet.applyAll page f es s).session.Honest f := by
  induction es generalizing s with
  | nil => exact h
  | cons e es ih =>
    rw [Sheet.applyAll_cons]
    exact ih (by rw [session_apply]; exact honest_converse e h)

theorem session_applyAll_of_nil {es : List Edit} (h : requestsOf es = []) (s : Sheet ε) :
    (Sheet.applyAll page f es s).session = s.session := by
  induction es generalizing s with
  | nil => rfl
  | cons e es ih =>
    obtain ⟨he, hes⟩ := List.append_eq_nil_iff.1 h
    rw [Sheet.applyAll_cons, ih hes, session_apply]
    cases e with
    | write c => exact c.session_resolve_of_nil he s.session
    | writeInert c => exact c.session_resolve_of_nil he s.session
    | _ => rfl

theorem failure_applyAll (es : List Edit) :
    (Sheet.applyAll page f es .blank).session.failure =
      firstFailure? f (requestsOf es) := by
  have h := honest_applyAll page es (s := Sheet.blank) (f := f) rfl
  rw [h, requests_applyAll]; rfl

end PugPretty
