import PugPretty.Proofs.Statements

/-!
# The outcome of a run

On well-formed streams a run is never astray, so its outcome is read off the session. The answers of
the formatter have no part in what it is asked (`requests_format`), and they decide between success
and failure by the first failure that counts (`format_outcome`).
-/

namespace PugPretty

open Text

/-! ## Patterns that can be read -/

def AllRead (read : PatternReader) (ps : List String) : Prop :=
  ∀ p ∈ ps, ∃ names, read p = .ok names

def FirstRefused (read : PatternReader) (ps : List String) (reason : String) : Prop :=
  ∃ before p after, ps = before ++ p :: after ∧ AllRead read before ∧ read p = .error reason

def Options.patterns (o : Options) : List String :=
  (o.style.leading.map wholePattern ++ o.style.trailing.map wholePattern) ++
    o.layout.wrapPattern.toList.filter (· ≠ "")

def Options.Readable (read : PatternReader) (o : Options) : Prop := AllRead read o.patterns

section
variable {read : PatternReader}

theorem allRead_append {ps qs : List String} :
    AllRead read (ps ++ qs) ↔ AllRead read ps ∧ AllRead read qs :=
  List.forall_mem_append

theorem FirstRefused.append_right {ps : List String} {reason : String}
    (h : FirstRefused read ps reason) (qs : List String) : FirstRefused read (ps ++ qs) reason := by
  obtain ⟨before, p, after, rfl, hb, hp⟩ := h
  exact ⟨before, p, after ++ qs, by simp, hb, hp⟩

theorem FirstRefused.append_left {ps qs : List String} {reason : String} (hr : AllRead read ps)
    (h : FirstRefused read qs reason) : FirstRefused read (ps ++ qs) reason := by
  obtain ⟨before, p, after, rfl, hb, hp⟩ := h
  exact ⟨ps ++ before, p, after, by simp, allRead_append.2 ⟨hr, hb⟩, hp⟩

theorem FirstRefused.not_allRead {ps : List String} {reason : String}
    (h : FirstRefused read ps reason) : ¬ AllRead read ps := by
  obtain ⟨before, p, after, rfl, -, hp⟩ := h
  intro hr
  obtain ⟨names, hn⟩ := hr p (by simp)
  cases hp.symm.trans hn

end

/-- What has been read from the patterns is there if all of them can be read, and what has not is
missing for the first one that is refused. -/
def ReadsInOrder {α : Type} (read : PatternReader) (ps : List String) : Except String α → Prop
  | .ok _ => AllRead read ps
  | .error reason => FirstRefused read ps reason

section
variable {α β : Type} {read : PatternReader}

theorem ReadsInOrder.bind {ps qs : List String} {r : Except String α} {g : α → Except String β}
    (hr : ReadsInOrder read ps r) (hg : ∀ a, ReadsInOrder read qs (g a)) :
    ReadsInOrder read (ps ++ qs) (r >>= g) := by
  cases r with
  | error reason => exact FirstRefused.append_right hr qs
  | ok a =>
    have ha := hg a
    show ReadsInOrder read (ps ++ qs) (g a)
    cases h : g a with
    | error reason =>
      rw [h] at ha
      exact FirstRefused.append_left hr ha
    | ok b =>
      rw [h] at ha
      exact allRead_append.2 ⟨hr, ha⟩

theorem readsInOrder_pure (a : α) : ReadsInOrder read [] (pure a) := List.forall_mem_nil _

theorem ReadsInOrder.map {ps : List String} {r : Except String α} (hr : ReadsInOrder read ps r)
    (g : α → β) : ReadsInOrder read ps (r >>= fun a => pure (g a)) := by
  have h := hr.bind fun a => readsInOrder_pure (g a)
  rwa [List.append_nil] at h

theorem readsInOrder_read (p : String) : ReadsInOrder read [p] (read p) := by
  cases h : read p with
  | ok names => exact List.forall_mem_singleton.2 ⟨names, h⟩
  | error reason => exact ⟨[], p, [], rfl, List.forall_mem_nil _, h⟩

theorem readsInOrder_mapM (read : PatternReader) (ps : List String) :
    ReadsInOrder read (ps.map wholePattern) (ps.mapM fun p => read (wholePattern p)) := by
  induction ps with
  | nil => exact readsInOrder_pure []
  | cons p ps ih =>
    rw [List.mapM_cons]
    exact (readsInOrder_read (wholePattern p)).bind fun name => ih.map (name :: ·)

theorem readsInOrder_readWraps (l : Layout) :
    ReadsInOrder read (l.wrapPattern.toList.filter (· ≠ "")) (l.readWraps read) := by
  unfold Layout.readWraps
  split
  · next h => simp [h, ReadsInOrder, AllRead]
  · next h => simp [h, ReadsInOrder, AllRead]
  · next p hne h =>
    have hp : p ≠ "" := fun he => hne (by rw [he])
    have hps : l.wrapPattern.toList.filter (· ≠ "") = [p] := by simp [h, hp]
    rw [hps]
    exact readsInOrder_read p

theorem readsInOrder_readPatterns (read : PatternReader) (o : Options) :
    ReadsInOrder read o.patterns (o.readPatterns read) := by
  have hleading := readsInOrder_mapM read o.style.leading
  have htrailing := readsInOrder_mapM read o.style.trailing
  have horder : ReadsInOrder read _ (o.style.readOrder read) :=
    hleading.bind fun leading => htrailing.map fun trailing =>
      AttributeOrder.mk o.style.order leading trailing
  exact horder.bind fun ord => (readsInOrder_readWraps o.layout).map fun wrapsOn =>
    (ord, o.layout.page wrapsOn)

end

/-- The page is that of the layout, whichever names break a list. -/
def Page.Follows (page : Page) (l : Layout) : Prop := ∃ wrapsOn, page = l.page wrapsOn

theorem isBlank_indentChar {l : Layout} {page : Page} (h : page.Follows l) :
    isBlank page.indentChar = true := by
  obtain ⟨wrapsOn, rfl⟩ := h
  show isBlank l.indentChar = true
  unfold Layout.indentChar
  split <;> decide

section
variable {ε : Type} {read : PatternReader} {o : Options}

theorem readPatterns_eq_ok_iff {ord : AttributeOrder} {page : Page} :
    o.readPatterns read = .ok (ord, page) ↔ o.style.readOrder read = .ok ord ∧
      ∃ wrapsOn, o.layout.readWraps read = .ok wrapsOn ∧ page = o.layout.page wrapsOn := by
  unfold Options.readPatterns
  cases o.style.readOrder read with
  | error reason => simp [bind, Except.bind]
  | ok ord' =>
    cases o.layout.readWraps read with
    | error reason => simp [bind, Except.bind]
    | ok wrapsOn => simp [bind, Except.bind, pure, Except.pure, eq_comm]

theorem follows_of_readPatterns {ord : AttributeOrder} {page : Page}
    (h : o.readPatterns read = .ok (ord, page)) : page.Follows o.layout := by
  obtain ⟨-, wrapsOn, -, hpage⟩ := readPatterns_eq_ok_iff.1 h
  exact ⟨wrapsOn, hpage⟩

theorem exists_page_of_readable (h : o.Readable read) :
    ∃ ord page, o.readPatterns read = .ok (ord, page) ∧ page.Follows o.layout := by
  have hr := readsInOrder_readPatterns read o
  cases hs : o.readPatterns read with
  | ok x => exact ⟨x.1, x.2, rfl, follows_of_readPatterns hs⟩
  | error reason =>
    rw [hs] at hr
    exact absurd h hr.not_allRead

theorem exists_refused (h : ¬ o.Readable read) (f : Formatter ε) (ts : List Token) :
    ∃ reason, FirstRefused read o.patterns reason ∧
      format read o f ts = { requests := [], result := .error (.invalidPattern reason) } := by
  have hr := readsInOrder_readPatterns read o
  unfold format
  cases hs : o.readPatterns read with
  | ok x =>
    rw [hs] at hr
    exact absurd hr h
  | error reason =>
    rw [hs] at hr
    exact ⟨reason, hr, rfl⟩

theorem format_eq {ord : AttributeOrder} {page : Page} (h : o.readPatterns read = .ok (ord, page))
    (f : Formatter ε) (ts : List Token) :
    format read o f ts =
      { requests := (writeTokens o.style page f (ord.arrange ts)).session.requests
        result := (writeTokens o.style page f (ord.arrange ts)).result.map (finishText o) } := by
  unfold format
  rw [h]

theorem format_congr (f : Formatter ε) {ts us : List Token}
    (h : ∀ ord page, o.readPatterns read = .ok (ord, page) →
      writeTokens o.style page f (ord.arrange ts) = writeTokens o.style page f (ord.arrange us)) :
    format read o f ts = format read o f us := by
  unfold format
  split
  · next ord page hs => rw [h ord page hs]
  · rfl

end

/-! ## Runs on well-formed streams -/

section
variable {ε : Type} (style : Style) {page : Page} (f : Formatter ε)

theorem astray_writeTokens (hp : isBlank page.indentChar = true) {ts : List Token}
    (h : WellFormed ts) : (writeTokens style page f ts).draft.astray = false := by
  obtain ⟨body, tail, rfl, he, hn, ht⟩ := h.exists_body
  rw [(writeTokens_body style page f body ht).2.1]
  exact (draws_sheetAfter style f _ hp he hn).1.steady

theorem requests_writeTokens (ts : List Token) :
    (writeTokens style page f ts).session.requests = requestsOf (plan style ts) :=
  requests_applyAll page (plan style ts) {}

theorem result_writeTokens (hp : isBlank page.indentChar = true) {ts : List Token}
    (h : WellFormed ts) :
    (writeTokens style page f ts).result =
      match firstFailure? f (requestsOf (plan style ts)) with
      | some (e, code) => .error (.external e code)
      | none => .ok (String.ofList (writeTokens style page f ts).draft.text) := by
  rw [Sheet.result, astray_writeTokens style f hp h, ← failure_applyAll page, writeTokens]
  rfl

end

theorem result_ne_strayShorthand {ε : Type} (read : PatternReader) (o : Options) (f : Formatter ε)
    {ts : List Token} (h : WellFormed ts) :
    (format read o f ts).result ≠ .error .strayShorthand := by
  by_cases ho : o.Readable read
  · obtain ⟨ord, page, hs, hl⟩ := exists_page_of_readable ho
    rw [format_eq hs, result_writeTokens _ _ (isBlank_indentChar hl) (h.arrange ord)]
    split <;> simp [Except.map]
  · obtain ⟨reason, -, hrun⟩ := exists_refused ho f ts
    rw [hrun]
    simp

/-- **The formatter is asked the same, whatever it answers.** -/
theorem requests_format {ε δ : Type} (read : PatternReader) (o : Options) (f : Formatter ε)
    (g : Formatter δ) {ts : List Token} (h : WellFormed ts) :
    (format read o f ts).requests = (format read o g ts).requests ∧
      (format read o f ts).result ≠ .error .strayShorthand ∧
      (format read o g ts).result ≠ .error .strayShorthand := by
  refine ⟨?_, result_ne_strayShorthand read o f h, result_ne_strayShorthand read o g h⟩
  by_cases ho : o.Readable read
  · obtain ⟨ord, page, hs, -⟩ := exists_page_of_readable ho
    rw [format_eq hs, format_eq hs, requests_writeTokens, requests_writeTokens]
  · obtain ⟨_, -, hf⟩ := exists_refused ho f ts
    obtain ⟨_, -, hg⟩ := exists_refused ho g ts
    rw [hf, hg]

def codeSample : List Token :=
  [⟨.tag "p", {}⟩, ⟨.startAttributes, {}⟩, ⟨.attr ⟨"a", .source "x", true⟩, {}⟩, ⟨.endAttributes, {}⟩,
    ⟨.text "b {{ y }}", {}⟩, ⟨.newline, {}⟩, ⟨.code "z" false false, {}⟩, ⟨.eos, {}⟩]

theorem requests_format_codeSample : WellFormed codeSample ∧
    (format wordReader {} (fun _ _ => .error "no") codeSample).requests =
      (format wordReader {} (fun rs r => .ok ("\n" ++ r.code ++ toString rs.length) : Formatter Empty)
        codeSample).requests :=
  ⟨by decide, (requests_format wordReader {} _ _ (by decide)).1⟩

/-! ## Failures -/

section
variable {ε : Type} (style : Style) {page : Page} (f : Formatter ε)

theorem firstFailure?_eq_some_iff {rs : List Request} {e : ε} {code : String} :
    firstFailure? f rs = some (e, code) ↔
      ∃ i, FailsAt f rs i e code ∧ ∀ j < i, ∀ e' code', ¬ FailsAt f rs j e' code' := by
  simp only [firstFailure?_eq_some, failureAt?_eq_some, failureAt?_eq_none]

theorem firstFailure?_eq_none_iff {rs : List Request} :
    firstFailure? f rs = none ↔ ∀ i e code, ¬ FailsAt f rs i e code := by
  simp only [firstFailure?_eq_none, failureAt?_eq_none]

theorem infix_dropWhile {p : Char → Bool} {t u : Text} (h : t <:+: u) :
    t.dropWhile p <:+: u.dropWhile p := by
  obtain ⟨a, b, rfl⟩ := h
  rw [List.append_assoc, List.dropWhile_append]
  split
  · rw [List.dropWhile_append]
    split
    · next ht => rw [List.isEmpty_iff.1 ht]; exact List.nil_infix
    · exact List.infix_append_left
  · exact (List.dropWhile_suffix p).isInfix.trans (List.infix_append' _ t b)

theorem infix_finish {d : Draft} {t : Text} (h : t <:+: d.text) :
    dropEndWhile (· == '\n') t <:+: d.finish.text := by
  rw [Draft.text_finish]
  refine List.IsInfix.trans ?_ List.infix_append_left
  unfold dropEndWhile
  rw [List.reverse_infix]
  exact infix_dropWhile (List.reverse_infix.2 h)

theorem LineBreak.apply_append (b : LineBreak) (t u : Text) :
    b.apply (t ++ u) = b.apply t ++ b.apply u := by
  cases b with
  | lf => rfl
  | crlf => exact List.flatMap_append

theorem infix_finishText (o : Options) {t u : Text} (h : t <:+: u) :
    o.layout.lineBreak.apply t <:+: (finishText o (String.ofList u)).toList := by
  have hb : ∀ {v : Text}, t <:+: v → o.layout.lineBreak.apply t <:+: o.layout.lineBreak.apply v := by
    rintro v ⟨a, b, rfl⟩
    rw [LineBreak.apply_append, LineBreak.apply_append]
    exact List.infix_append _ _ _
  unfold finishText
  rw [String.toList_ofList]
  refine hb ?_
  split
  · unfold insertPragma
    split
    · simpa using h
    · rw [String.toList_append, String.toList_ofList]
      exact h.trans List.infix_append_right
  · simpa using h

/-- The request is made for a token of code, and its code is printed as it is on a line of its own,
where it stays but for line feeds at the end of the text. -/
def PrintedAsIs (style : Style) (page : Page) (f : Formatter ε) (ts : List Token) (i : Nat)
    (code : String) : Prop :=
  ∃ done t rest mustEscape buffer, ts = done ++ t :: rest ∧ t.kind = .code code mustEscape buffer ∧
    (sheetAfter style page f done (t :: rest)).session.requests =
      (writeTokens style page f ts).session.requests.take i ∧
    (sheetAfter style page f (done ++ [t]) rest).draft.text =
      (sheetAfter style page f done (t :: rest)).draft.text ++
        leadText page (done.getLast?.map (·.kind)) (nesting done) ++ codeSign mustEscape buffer ++
        ' ' :: code.toList ∧
    dropEndWhile (· == '\n') code.toList <:+: (writeTokens style page f ts).draft.text

theorem printedAsIs_of_error (hp : isBlank page.indentChar = true) {ts : List Token}
    (h : WellFormed ts) {i : Nat} {r : Request}
    (hi : (writeTokens style page f ts).session.requests[i]? = some r)
    (hg : r.grammar = .statement) {e : ε}
    (he : f ((writeTokens style page f ts).session.requests.take i) r = .error e) :
    PrintedAsIs style page f ts i r.code := by
  rw [requests_writeTokens, requests_plan] at hi he
  obtain ⟨done, t, rest, rfl, hd, flow, hm⟩ := exists_code_of_statement style hg [] ts none {} i hi
  rw [List.append_nil] at hd
  obtain ⟨mustEscape, buffer, hk, -, hr⟩ := Kind.code_of_statement hm hg
  have hreq : (sheetAfter style page f done (t :: rest)).session.requests =
      (requestsOf (editsUpTo style (done ++ t :: rest) []).1).take i := by
    rw [requests_sheetAfter]; exact hd
  have hcode : ((sheetAfter style page f done (t :: rest)).session.resolve f r).1 = r.code.toList :=
    resolve_of_error hg (by rw [hreq]; exact he)
  refine ⟨done, t, rest, mustEscape, buffer, rfl, hk, ?_, ?_, ?_⟩
  · rw [requests_writeTokens, requests_plan]; exact hreq
  · rw [text_code style page f hk hr, hcode]
  · -- the code stands in the sketch from its token on, so it stands in the text at the end
    obtain ⟨body, tail, hb, hbe, hn, ht⟩ := h.exists_body
    obtain ⟨more, rfl, rfl⟩ := exists_rest_of_body hb.symm ht (by rw [hk]; simp)
    have hde : enclosed false done = true := enclosed_before (by rw [hk]; rfl) more _ _ hbe
    have hdn := (List.forall_mem_append.1 hn).1
    rw [(draws_sheetAfter style f _ hp hde hdn).1.session] at hcode
    have hkeep := keeps_code (f := f) style tail hbe hn hk hr
    rw [hcode] at hkeep
    rw [← List.cons_append, ← List.append_assoc, (writeTokens_body style page f _ ht).1]
    exact infix_finish ((draws_sheetAfter style f _ hp hbe hn).1.infix_of_keeps hkeep)

end

section
variable {ε : Type} {o : Options} {page : Page} (f : Formatter ε)

theorem result_eq_external (style : Style) (hp : isBlank page.indentChar = true) {ts : List Token}
    (h : WellFormed ts) (g : String → String) {e : ε} {code : String} :
    (writeTokens style page f ts).result.map g = .error (.external e code) ↔
      ∃ i, FailsAt f (requestsOf (plan style ts)) i e code ∧
        ∀ j < i, ∀ e' code', ¬ FailsAt f (requestsOf (plan style ts)) j e' code' := by
  rw [← firstFailure?_eq_some_iff, result_writeTokens style f hp h]
  cases firstFailure? f (requestsOf (plan style ts)) with
  | none => simp [Except.map]
  | some x => obtain ⟨e', code'⟩ := x; simp [Except.map]

theorem result_eq_ok (style : Style) (hp : isBlank page.indentChar = true) {ts : List Token}
    (h : WellFormed ts) (g : String → String) {text : String} :
    (writeTokens style page f ts).result.map g = .ok text ↔
      (∀ i e code, ¬ FailsAt f (requestsOf (plan style ts)) i e code) ∧
        text = g (String.ofList (writeTokens style page f ts).draft.text) := by
  rw [← firstFailure?_eq_none_iff, result_writeTokens style f hp h]
  cases firstFailure? f (requestsOf (plan style ts)) with
  | none => simp [Except.map, eq_comm]
  | some x => simp [Except.map]

end

/-- **The first failure that counts decides the outcome.** The first pattern that cannot be read ends
the run before anything is asked. Otherwise everything is asked, the run fails with the first failure
of a request that is not for a statement, and a statement that fails is printed as it is. -/
theorem format_outcome {ε : Type} (read : PatternReader) (o : Options) (f : Formatter ε)
    {ts : List Token} (h : WellFormed ts) :
    let run := format read o f ts
    (¬ o.Readable read → run.requests = [] ∧
      ∃ reason, FirstRefused read o.patterns reason ∧ run.result = .error (.invalidPattern reason)) ∧
    (o.Readable read →
      (∀ e code, run.result = .error (.external e code) ↔
        ∃ i, FailsAt f run.requests i e code ∧ ∀ j < i, ∀ e' code', ¬ FailsAt f run.requests j e' code') ∧
      ((∃ text, run.result = .ok text) ↔ ∀ i e code, ¬ FailsAt f run.requests i e code) ∧
      ∃ ord page, o.readPatterns read = .ok (ord, page) ∧
        run.requests = requestsOf (plan o.style (ord.arrange ts)) ∧
        ∀ i r e, run.requests[i]? = some r → r.grammar = .statement →
          f (run.requests.take i) r = .error e →
          PrintedAsIs o.style page f (ord.arrange ts) i r.code ∧
            ∀ text, run.result = .ok text →
              o.layout.lineBreak.apply (dropEndWhile (· == '\n') r.code.toList) <:+: text.toList) := by
  refine ⟨fun ho => ?_, fun ho => ?_⟩
  · obtain ⟨reason, hr, hrun⟩ := exists_refused ho f ts
    rw [hrun]
    exact ⟨rfl, reason, hr, rfl⟩
  · obtain ⟨ord, page, hs, hl⟩ := exists_page_of_readable ho
    have hp := isBlank_indentChar hl
    have hw := h.arrange ord
    have hreq : (format read o f ts).requests = requestsOf (plan o.style (ord.arrange ts)) := by
      rw [format_eq hs]; exact requests_writeTokens _ _ _
    have hres : (format read o f ts).result = _ := congrArg Outcome.result (format_eq hs f ts)
    rw [hreq, hres]
    refine ⟨fun e code => result_eq_external f o.style hp hw _, ?_, ord, page, hs, rfl, ?_⟩
    · constructor
      · rintro ⟨text, ht⟩
        exact ((result_eq_ok f o.style hp hw _).1 ht).1
      · intro hn
        exact ⟨_, (result_eq_ok f o.style hp hw _).2 ⟨hn, rfl⟩⟩
    · intro i r e hi hg he
      rw [← requests_writeTokens o.style f] at hi he
      have hprinted := printedAsIs_of_error o.style f hp hw hi hg he
      refine ⟨hprinted, fun text ht => ?_⟩
      obtain ⟨-, -, -, -, -, -, -, -, -, hin⟩ := hprinted
      rw [((result_eq_ok f o.style hp hw _).1 ht).2]
      exact infix_finishText o hin

def sampleReader : PatternReader := fun p =>
  if p = "(" then .error "regex parse error:\n    (\n    ^\nerror: unclosed group" else wordReader p

def orderedSample : Options := { style := { leading := ["a"] } }

def refusedSample : Options :=
  { layout := { wrapPattern := some "(" }, style := { leading := ["a"] } }

theorem format_outcome_codeSample :
    let f : Formatter String := fun _ _ => .error "no"
    let refused := format sampleReader refusedSample f codeSample
    let run := format sampleReader orderedSample f codeSample
    WellFormed codeSample ∧
    (refused.requests = [] ∧ ∃ reason, FirstRefused sampleReader ["^(?:a)$", "("] reason ∧
      refused.result = .error (.invalidPattern reason)) ∧
    run.result = .error (.external "no" "x") ∧
    ∃ (ord : AttributeOrder) (page : Page),
      PrintedAsIs orderedSample.style page f (ord.arrange codeSample) 2 "z" := by
  intro f refused run
  have hw : WellFormed codeSample := by decide
  have hread : AllRead sampleReader ["^(?:a)$"] :=
    List.forall_mem_singleton.2 ⟨_, rfl⟩
  have hparen : FirstRefused sampleReader ["^(?:a)$", "("] _ := ⟨["^(?:a)$"], "(", [], rfl, hread, rfl⟩
  obtain ⟨hx, -, ord, page, hs, -, hz⟩ := (format_outcome sampleReader orderedSample f hw).2 hread
  refine ⟨hw, (format_outcome sampleReader refusedSample f hw).1 hparen.not_allRead, ?_, ord, page, ?_⟩
  · refine (hx _ _).2 ⟨0, ⟨_, rfl, by decide, rfl, rfl⟩, ?_⟩
    intro j hj
    exact absurd hj (Nat.not_lt_zero j)
  · exact (hz 2 ⟨"z", 9000, .single, .statement, true⟩ "no" (by decide) rfl rfl).1

end PugPretty
