import PugPretty.Proofs.Outcome

/-!
# The layout changes blanks only

Two runs of one style under different layouts ask the same, fail alike, and print the same characters
apart from blanks (`format_layout`). The text of both shows one sketch. The pragma is the only thing
that depends on the text as a whole, and it is decided in front of the first gap (`hasPragma_congr`).
-/

namespace PugPretty

open Text

def solid (t : Text) : Text := t.filter (!isBlank ·)

theorem solid_append (t u : Text) : solid (t ++ u) = solid t ++ solid u := List.filter_append ..

/-! ## The end of the text -/

theorem exists_lineFeeds (t : Text) :
    ∃ n, t = dropEndWhile (· == '\n') t ++ List.replicate n '\n' := by
  refine ⟨(t.reverse.takeWhile (· == '\n')).length, ?_⟩
  have hr : t.reverse.takeWhile (· == '\n') =
      List.replicate (t.reverse.takeWhile (· == '\n')).length '\n' := by
    refine List.eq_replicate_iff.2 ⟨rfl, fun c hc => ?_⟩
    simpa using List.mem_takeWhile_imp hc
  have ht := congrArg List.reverse (List.takeWhile_append_dropWhile (p := (· == '\n')) (l := t.reverse))
  rw [List.reverse_append, List.reverse_reverse, hr, List.reverse_replicate] at ht
  exact ht.symm

theorem solid_lineFeeds (n : Nat) : solid (List.replicate n '\n') = [] := by
  refine List.filter_eq_nil_iff.2 fun c hc => ?_
  rw [List.eq_of_mem_replicate hc]
  decide

theorem solid_finish (d : Draft) : solid d.finish.text = solid d.text := by
  obtain ⟨n, hn⟩ := exists_lineFeeds d.text
  conv_rhs => rw [hn]
  rw [Draft.text_finish, solid_append, solid_append, solid_lineFeeds]
  rfl

theorem solid_lineBreak (b : LineBreak) (t : Text) : solid (b.apply t) = solid t := by
  cases b with
  | lf => rfl
  | crlf =>
    induction t with
    | nil => rfl
    | cons c t ih =>
      have hc : LineBreak.crlf.apply (c :: t) =
          (if c = '\n' then ['\r', '\n'] else [c]) ++ LineBreak.crlf.apply t := rfl
      rw [hc, solid_append, ih]
      by_cases hn : c = '\n'
      · subst hn; rfl
      · rw [if_neg hn, ← solid_append]; rfl

/-! ## The pragma -/

/-- Whether a text begins with a line that has no bar can be told from what stands in front of a bar
of the text. -/
theorem prefix_iff_of_bar {q w t : Text} {x c : Char} (hq : q.any isBar = false)
    (hc : isBar c = true) : q ++ [x] <+: w ++ c :: t ↔ q ++ [x] <+: w ++ [c] := by
  have hw : w ++ c :: t = (w ++ [c]) ++ t := by simp
  rw [hw]
  refine ⟨fun h => ?_, fun h => h.trans (List.prefix_append _ _)⟩
  rcases Nat.lt_or_ge (w ++ [c]).length (q ++ [x]).length with hlt | hle
  · -- the bar would stand inside the line
    have hp : w ++ [c] <+: q ++ [x] :=
      List.prefix_of_prefix_length_le (List.prefix_append _ _) h (Nat.le_of_lt hlt)
    have hpq : w ++ [c] <+: q := by
      refine List.prefix_of_prefix_length_le hp (List.prefix_append _ _) ?_
      simp only [List.length_append, List.length_singleton] at hlt ⊢
      omega
    exact absurd hc (List.any_eq_false.1 hq c (hpq.subset (by simp)))
  · exact List.prefix_of_prefix_length_le h (List.prefix_append _ _) hle

theorem prefix_finish_iff {q : Text} {x : Char} (hq : q.any isBar = false) (d : Draft) :
    q ++ [x] <+: d.finish.text ↔ q ++ [x] <+: d.text ++ ['\n'] := by
  obtain ⟨n, hn⟩ := exists_lineFeeds d.text
  have ht : d.text ++ ['\n'] = dropEndWhile (· == '\n') d.text ++ '\n' :: List.replicate n '\n' := by
    conv_lhs => rw [hn]
    rw [List.append_assoc, ← List.replicate_succ', List.replicate_succ]
  rw [Draft.text_finish, ht]
  exact (prefix_iff_of_bar hq (by decide)).symm

theorem prefix_congr {q : Text} {x : Char} (hq : q.any isBar = false) {d d' : Draft}
    (h : d.text = d'.text ∨
      ∃ w c t u, isBar c = true ∧ d.text = w ++ c :: t ∧ d'.text = w ++ c :: u) :
    q ++ [x] <+: d.finish.text ↔ q ++ [x] <+: d'.finish.text := by
  rw [prefix_finish_iff hq, prefix_finish_iff hq]
  rcases h with h | ⟨w, c, t, u, hc, ht, hu⟩
  · rw [h]
  · rw [ht, hu, List.append_assoc, List.append_assoc, List.cons_append, List.cons_append]
    exact (prefix_iff_of_bar hq hc).trans (prefix_iff_of_bar hq hc).symm

theorem hasPragma_congr {d d' : Draft}
    (h : d.text = d'.text ∨
      ∃ w c t u, isBar c = true ∧ d.text = w ++ c :: t ∧ d'.text = w ++ c :: u) :
    hasPragma (String.ofList d.finish.text) = hasPragma (String.ofList d'.finish.text) := by
  have h1 : pragmaLine.toList = "//- @prettier".toList ++ ['\n'] := by decide
  have h2 : "//- @format\n".toList = "//- @format".toList ++ ['\n'] := by decide
  rw [Bool.eq_iff_iff]
  simp only [hasPragma, Bool.or_eq_true, List.isPrefixOf_iff_prefix, String.toList_ofList]
  rw [h1, h2, prefix_congr (by decide) h, prefix_congr (by decide) h]

theorem solid_finishText (o o' : Options) (hs : o.style = o'.style) {t t' : Text}
    (ht : solid t = solid t') (hp : hasPragma (String.ofList t) = hasPragma (String.ofList t')) :
    solid (finishText o (String.ofList t)).toList = solid (finishText o' (String.ofList t')).toList := by
  simp only [finishText, String.toList_ofList, solid_lineBreak, hs]
  split
  · simp only [insertPragma, hp]
    split
    · simpa using ht
    · simp only [String.toList_append, String.toList_ofList, solid_append, ht]
  · simpa using ht

/-! ## Two runs -/

theorem exists_drafts {ε : Type} (style : Style) (f : Formatter ε) {page page' : Page}
    (hp : isBlank page.indentChar = true) (hp' : isBlank page'.indentChar = true) {ts : List Token}
    (h : WellFormed ts) :
    ∃ d d' : Draft, (writeTokens style page f ts).draft.text = d.finish.text ∧
      (writeTokens style page' f ts).draft.text = d'.finish.text ∧ solid d.text = solid d'.text ∧
      (d.text = d'.text ∨ ∃ w c t u, isBar c = true ∧ d.text = w ++ c :: t ∧ d'.text = w ++ c :: u) := by
  obtain ⟨body, tail, rfl, he, hn, ht⟩ := h.exists_body
  obtain ⟨hd, hb⟩ := draws_sheetAfter style f tail hp he hn
  obtain ⟨hd', -⟩ := draws_sheetAfter style f tail hp' he hn
  exact ⟨_, _, (writeTokens_body style page f body ht).1, (writeTokens_body style page' f body ht).1,
    hd.text.filter_eq hd'.text, hd.text.eq_or_bar hb hd'.text⟩

/-- **The layout decides about blanks and nothing else.** -/
theorem format_layout {ε : Type} (read : PatternReader) (style : Style) (l l' : Layout)
    (f : Formatter ε) (hl : Options.Readable read ⟨l, style⟩)
    (hl' : Options.Readable read ⟨l', style⟩) {ts : List Token} (h : WellFormed ts) :
    let run := format read ⟨l, style⟩ f ts
    let run' := format read ⟨l', style⟩ f ts
    run.requests = run'.requests ∧
      run.result.map (fun text => solid text.toList) =
        run'.result.map (fun text => solid text.toList) ∧
      run.result ≠ .error .strayShorthand := by
  intro run run'
  obtain ⟨ord, page, hs, hpage⟩ := exists_page_of_readable hl
  obtain ⟨ord', page', hs', hpage'⟩ := exists_page_of_readable hl'
  obtain rfl : ord = ord' := Except.ok.inj
    ((readPatterns_eq_ok_iff.1 hs).1.symm.trans (readPatterns_eq_ok_iff.1 hs').1)
  have hp := isBlank_indentChar hpage
  have hp' := isBlank_indentChar hpage'
  have hw := h.arrange ord
  have hrun : run = _ := format_eq hs f ts
  have hrun' : run' = _ := format_eq hs' f ts
  refine ⟨?_, ?_, result_ne_strayShorthand read ⟨l, style⟩ f h⟩
  · rw [hrun, hrun', requests_writeTokens, requests_writeTokens]
  · -- the same failure under both layouts, or two texts that show one sketch
    obtain ⟨d, d', hd, hd', hsolid, hbar⟩ := exists_drafts style f hp hp' hw
    rw [hrun, hrun', result_writeTokens style f hp hw, result_writeTokens style f hp' hw, hd, hd']
    cases firstFailure? f (requestsOf (plan style (ord.arrange ts))) with
    | some x => rfl
    | none =>
      have hf : solid d.finish.text = solid d'.finish.text := by
        rw [solid_finish, solid_finish, hsolid]
      exact congrArg Except.ok
        (solid_finishText ⟨l, style⟩ ⟨l', style⟩ rfl hf (hasPragma_congr hbar))

theorem format_layout_codeSample :
    let narrow : Layout := { useTabs := true, lineBreak := .crlf, wrapPattern := some "^(?:a)$" }
    let f : Formatter Empty := fun _ r => .ok r.code
    Options.Readable wordReader ⟨narrow, {}⟩ ∧ Options.Readable wordReader {} ∧
      WellFormed codeSample ∧
      (format wordReader ⟨narrow, {}⟩ f codeSample).result.map (fun text => solid text.toList) =
        (format wordReader {} f codeSample).result.map (fun text => solid text.toList) := by
  intro narrow f
  have hn : Options.Readable wordReader ⟨narrow, {}⟩ := List.forall_mem_singleton.2 ⟨_, rfl⟩
  have hd : Options.Readable wordReader {} := List.forall_mem_nil _
  have hw : WellFormed codeSample := by decide
  exact ⟨hn, hd, hw, (format_layout wordReader {} narrow {} f hn hd hw).2.1⟩

end PugPretty
