import FilterQuery.Proofs.Grammar.Recovery

/-!
# Proofs/Grammar/Mistakes — which mistakes in a chain are reported

    a =      AND   b > , 1   OR   c = 1 d    AND   e
    reported       reported       overruns         lost

A chain is written in **segments**, right or wrong, with connectors between.  As long as the atom
that is read in a segment ends with it, or breaks off and is skipped, the next segment is read as if
it stood alone (`exists_condition_run_eq`), and one that is no atom leaves an error.  A segment
**overruns** if an atom ends before it does (`overruns_of_atom`).  There the reading of the chain
ends too: the rest of that segment is the last mistake, and nothing is said about the segments after
it (`mistakes_reported_up_to_overrun`).
-/

namespace FilterQuery

namespace Grammar

open FilterQuery.Balance (run Within ends)

variable {finish : Nat}

/-! ## Segments -/

/-- One operand of a chain as it is written, right or wrong: tokens whose brackets match, without
connectors outside of brackets, and the connector or the end of input after them. -/
structure Segment where
  tokens : List Token
  stop : Token
  balanced : run [] tokens = some []
  ends_stop : ends stop.kind = true

namespace Segment

/-- The tokens of a segment and the one after them. -/
def all (s : Segment) : List Token :=
  s.tokens ++ [s.stop]

/-- Where these are. -/
def offsets (s : Segment) : List Nat :=
  s.all.map Token.offset

/-- Whether an atom ends before its segment does.  The atom itself is right, but for mistakes within
its group. -/
def Overruns (finish : Nat) (s : Segment) : Prop :=
  ∃ expr errors extra, extra ≠ [] ∧ (atom finish maxDepth (inner finish maxDepth)).run s.all =
    (⟨.ok expr, errors⟩, extra ++ [s.stop])

/-- A token of a segment stands at one of its offsets. -/
theorem mem_offsets {s : Segment} {t : Token} (h : t ∈ s.tokens) : t.offset ∈ s.offsets :=
  List.mem_map.2 ⟨t, List.mem_append_left _ h, rfl⟩

/-- The token a segment stops at stands at one of its offsets. -/
theorem stop_mem_offsets (s : Segment) : s.stop.offset ∈ s.offsets :=
  List.mem_map.2 ⟨s.stop, List.mem_append_right _ List.mem_cons_self, rfl⟩

/-- At its first token one is within a segment. -/
theorem within (s : Segment) (after : List Token) :
    Within [] (s.tokens ++ s.stop :: after) (s.stop :: after) :=
  ⟨s.tokens, rfl, s.balanced⟩

/-- Tokens whose brackets match leave the rest of the segment from which they are taken. -/
theorem exists_extra {s : Segment} {ts r after : List Token} {opened : List Punct}
    (hs : s.tokens ++ s.stop :: after = ts ++ r) (hrun : run [] ts = some opened) :
    ∃ extra, r = extra ++ s.stop :: after ∧ s.tokens = ts ++ extra ∧
      run opened extra = some [] := by
  obtain ⟨extra, rfl, hextra⟩ := (hs ▸ s.within after).advance s.ends_stop hrun
  refine ⟨extra, rfl, ?_, hextra⟩
  rw [← List.append_assoc] at hs
  exact List.append_cancel_right hs

/-- What is read of a segment does not depend on what comes after it. -/
theorem read_all {α : Type} {read : List Token → α × List Token} {s : Segment}
    {ts extra after : List Token} {a : α} (h : Takes read ts (extra ++ s.stop :: after) a)
    (htokens : s.tokens = ts ++ extra) : read s.all = (a, extra ++ [s.stop]) := by
  rw [all, htokens, List.append_assoc]
  exact h _ (head?_append_congr extra rfl)

/-- **The operand that is read in a segment ends with it, or the segment overruns.** -/
theorem settles (finish : Nat) (s : Segment) (after : List Token) :
    (¬ s.Overruns finish ∧ ∃ reading, Settles finish (operandOf finish maxDepth).run [] s.tokens
        (s.stop :: after) reading) ∨
      (s.Overruns finish ∧ ∃ ts t extra reading, s.tokens = ts ++ t :: extra ∧
        ends t.kind = false ∧ Settles finish (operandOf finish maxDepth).run [] ts
          (t :: extra ++ s.stop :: after) reading) := by
  have htries : Tries finish (atom finish maxDepth (inner finish maxDepth)).run
      (s.tokens ++ s.stop :: after) := atom_tries s.ends_stop maxDepth (.inl rfl) (s.within after)
  cases htries with
  | @ok ts r expr errors hs htakes hrun haccounted hspan =>
    obtain ⟨extra, rfl, htokens, hextra⟩ := exists_extra hs hrun
    have hread := read_all htakes htokens
    have hsettles := settles_of_ok htakes hrun haccounted hspan
    cases extra with
    | nil =>
      rw [List.append_nil] at htokens
      refine .inl ⟨?_, _, htokens ▸ hsettles⟩
      rintro ⟨_, _, extra, hne, hrun⟩
      rw [hread, Prod.mk.injEq] at hrun
      have hextra : [] ++ [s.stop] = extra ++ [s.stop] := hrun.2
      exact hne (List.append_cancel_right hextra).symm
    | cons t extra =>
      exact .inr ⟨⟨expr, errors, _, List.cons_ne_nil t extra, hread⟩, ts, t, extra, _, htokens,
        Balance.ends_eq_false_of_run hextra, hsettles⟩
  | @error ts r e errors opened hs htakes hrun hspan =>
    obtain ⟨us, r', rfl, hend, hsettles⟩ :=
      exists_settles_of_error (.inl rfl) s.ends_stop (hs ▸ s.within after) htakes hrun hspan
    obtain rfl : r' = s.stop :: after := hend rfl
    rw [← List.append_assoc] at hs
    have htokens := List.append_cancel_right hs
    refine .inl ⟨?_, _, htokens ▸ hsettles⟩
    rintro ⟨_, _, extra, -, hrun⟩
    rw [read_all htakes htokens] at hrun
    cases hrun

/-- **A segment that does not overrun is read to its end,** with an error if it is no atom. -/
theorem run_of_not_overruns {s : Segment} (h : ¬ s.Overruns finish) (after : List Token) :
    ∃ reading, (operandOf finish maxDepth).run (s.tokens ++ s.stop :: after) =
        (reading, s.stop :: after) ∧ (∀ e ∈ reading.errors, e.offset ∈ s.offsets) ∧
      ((¬ ∃ e, Atom maxDepth 0 s.tokens e) → ∃ err, err ∈ reading.errors) := by
  rcases s.settles finish after with ⟨-, reading, hsettles⟩ | ⟨hover, -⟩
  · have hread := hsettles.takes _ rfl
    refine ⟨reading, hread, hsettles.blames, fun hatom => ?_⟩
    refine List.exists_mem_of_ne_nil _ (hsettles.accounted ?_)
    -- an expression would be the tree of the tokens taken
    refine Option.eq_none_iff_forall_ne_some.2 fun e he => hatom ⟨e, ?_⟩
    have hreads := operandOf_reads finish (Nat.zero_add maxDepth) fun b hb =>
      condition_reads finish b 1 (by omega)
    obtain ⟨us, hus, hatom⟩ := hreads (s.tokens ++ s.stop :: after) e (by rw [hread]; exact he)
    rw [hread] at hus
    rwa [List.append_cancel_right hus]
  · exact absurd hover h

/-- **A segment that overruns is read to the end of its atom,** and what follows does not go on with
the chain. -/
theorem run_of_overruns {s : Segment} (h : s.Overruns finish) (after : List Token) :
    ∃ reading t us, (operandOf finish maxDepth).run (s.tokens ++ s.stop :: after) =
        (reading, t :: us) ∧ (∀ e ∈ reading.errors, e.offset ∈ s.offsets) ∧
      t ∈ s.tokens ∧ ends t.kind = false := by
  rcases s.settles finish after with ⟨hfit, -⟩ | ⟨-, ts, t, extra, reading, hs, ht, hsettles⟩
  · exact absurd h hfit
  · have hmem : ∀ {u}, u ∈ ts ++ [t] → u ∈ s.tokens := fun hu => by
      rw [hs, List.append_cons]
      exact List.mem_append_left _ hu
    refine ⟨reading, t, extra ++ s.stop :: after, ?_, fun e he => ?_,
      hmem (List.mem_append_right _ List.mem_cons_self), ht⟩
    · rw [hs, List.append_assoc]
      exact hsettles.takes _ rfl
    · obtain ⟨u, hu, hoffset⟩ := List.mem_map.1 (hsettles.blames e he)
      exact hoffset ▸ mem_offsets (hmem hu)

/-- What stops a segment may follow an operand. -/
theorem follow_stop (s : Segment) (after : List Token) : Follow finish (s.stop :: after) := by
  have hends := s.ends_stop
  constructor <;>
  · intro hkind
    rw [show s.stop.kind = _ from hkind] at hends
    cases hends

/-- An atom does not overrun. -/
theorem not_overruns_of_atom {s : Segment} {e : Expr} (h : Atom maxDepth 0 s.tokens e) :
    ¬ s.Overruns finish := by
  intro hover
  obtain ⟨reading, t, us, hread, -, -, ht⟩ := run_of_overruns hover []
  rw [h.apply finish (Nat.zero_add _) _ (s.follow_stop []), Prod.mk.injEq] at hread
  rw [← (List.cons_eq_cons.1 hread.2).1, s.ends_stop] at ht
  cases ht

/-- A segment overruns if it starts with an atom and goes on with what cannot be a part of it. -/
theorem overruns_of_atom {s : Segment} {ts us : List Token} {t : Token} {e : Expr}
    (hs : s.tokens = ts ++ t :: us) (h : Atom maxDepth 0 ts e) (hperiod : t.kind ≠ .punct .period)
    (hparen : t.kind ≠ .punct .openParen) : s.Overruns finish := by
  refine Classical.byContradiction fun hfit => ?_
  obtain ⟨reading, hread, -⟩ := run_of_not_overruns hfit []
  rw [hs, List.append_assoc, h.apply finish (Nat.zero_add _) (t :: us ++ [s.stop])
    ⟨hperiod, hparen⟩, Prod.mk.injEq] at hread
  simpa using congrArg List.length hread.2

end Segment

/-! ## From segment to segment -/

/-- `g` puts the errors of a reading after others, which are at `offsets`. -/
structure Carries (g : Reading → Progress) (offsets : List Nat) : Prop where
  keeps : ∀ reading, reading.errors ⊆ (g reading).reading.errors
  blames : ∀ reading, ∀ e ∈ (g reading).reading.errors, e ∈ reading.errors ∨ e.offset ∈ offsets

/-- The first operand of a condition is carried as it is. -/
theorem carries_start (budget : Nat) : Carries (fun reading => ⟨reading, budget⟩) [] :=
  ⟨fun _ _ he => he, fun _ _ he => .inl he⟩

/-- One more operand, and the joint before it, carry their offsets along. -/
theorem Carries.step {g : Reading → Progress} {offsets : List Nat} (h : Carries g offsets)
    {reading : Reading} {more : List Nat} (hreading : ∀ e ∈ reading.errors, e.offset ∈ more)
    {j : Joint} (hj : j.offset ∈ more) :
    Carries (fun operand => (g reading).step (j, operand)) (offsets ++ more) := by
  refine ⟨fun operand => List.subset_append_right _ _, fun operand e he => ?_⟩
  rcases Progress.mem_errors_step he with he | he | he
  · refine .inr (List.mem_append.2 ?_)
    exact (h.blames reading e he).symm.imp_right (hreading e)
  · exact .inr (List.mem_append_right _ (he ▸ hj))
  · exact .inl he

/-- What ends a segment and not the input is a joint. -/
theorem exists_joint? {t : Token} (h : ends t.kind = true) (ht : t.kind ≠ .endOfInput) :
    ∃ j, joint? t = some j ∧ j.offset = t.offset := by
  cases hkind : t.kind <;> rw [hkind] at h
  case connector op => exact ⟨⟨op, t.offset⟩, joint?_eq_some_iff.2 ⟨hkind, rfl⟩, rfl⟩
  case endOfInput => exact absurd hkind ht
  all_goals cases h

/-- What does not end a segment is no joint. -/
theorem joint?_eq_none_of_ends {t : Token} (h : ends t.kind = false) : joint? t = none := by
  refine Option.eq_none_iff_forall_ne_some.2 fun j hj => ?_
  rw [(joint?_eq_some_iff.1 hj).1] at h
  cases h

/-- **Segments that do not overrun are read one after the other,** and what comes after them is read
as if it stood alone, but for the errors before. -/
theorem exists_goOn_eq (finish : Nat) (us : List Token) : ∀ {before : List Segment},
    (∀ b ∈ before, ¬ b.Overruns finish) → (∀ b ∈ before, b.stop.kind ≠ .endOfInput) →
    ∀ {g : Reading → Progress} {offsets : List Nat}, Carries g offsets →
      ∃ g', Carries g' (offsets ++ before.flatMap Segment.offsets) ∧
        let item := operandOf finish maxDepth
        let s := before.flatMap Segment.all ++ us
        goOn item (g (item.run s).1) (item.run s).2 = goOn item (g' (item.run us).1) (item.run us).2
  | [], _, _, g, offsets, hg => ⟨g, by simpa using hg, rfl⟩
  | b :: before, hfit, hstop, g, offsets, hg => by
    obtain ⟨j, hj, hoffset⟩ := exists_joint? b.ends_stop (hstop b List.mem_cons_self)
    obtain ⟨reading, hread, hblames, -⟩ := Segment.run_of_not_overruns
      (hfit b List.mem_cons_self) (before.flatMap Segment.all ++ us)
    obtain ⟨g', hg', heq⟩ := exists_goOn_eq finish us
      (fun b hb => hfit b (List.mem_cons_of_mem _ hb))
      (fun b hb => hstop b (List.mem_cons_of_mem _ hb))
      (hg.step hblames (hoffset ▸ b.stop_mem_offsets))
    refine ⟨g', by rwa [List.flatMap_cons, ← List.append_assoc], ?_⟩
    have hs : (b :: before).flatMap Segment.all ++ us =
        b.tokens ++ b.stop :: (before.flatMap Segment.all ++ us) := by
      simp [Segment.all]
    rw [hs]
    dsimp only
    rw [hread, goOn_of_joint _ _ hj]
    exact heq

/-- The segments before `us` are read up to `us`, if none overruns. -/
theorem exists_condition_run_eq (finish : Nat) (us : List Token) {before : List Segment}
    (hfit : ∀ b ∈ before, ¬ b.Overruns finish) (hstop : ∀ b ∈ before, b.stop.kind ≠ .endOfInput) :
    ∃ g, Carries g (before.flatMap Segment.offsets) ∧
      (condition finish maxDepth).run (before.flatMap Segment.all ++ us) =
        goOn (operandOf finish maxDepth) (g ((operandOf finish maxDepth).run us).1)
          ((operandOf finish maxDepth).run us).2 := by
  obtain ⟨g, hg, heq⟩ := exists_goOn_eq finish us hfit hstop (carries_start maxDepth)
  exact ⟨g, hg, by rw [condition_eq, conditionWith_run]; exact heq⟩

/-- A mistake once found is kept. -/
theorem Progress.subset_errors_step (p : Progress) (part : Joint × Reading) :
    p.reading.errors ⊆ (p.step part).reading.errors := by
  intro e he
  refine List.mem_append_left _ ?_
  rcases p.reading_charge part.1 with hcharge | hcharge <;> rw [hcharge]
  · exact he
  · exact List.mem_append_left _ he

/-- What has been recorded stays so. -/
theorem subset_errors_goOn (item : Consumer Token Reading) (p : Progress) (s : List Token) :
    p.reading.errors ⊆ (goOn item p s).1.errors := by
  rw [goOn]
  generalize (Consumer.separatedTail joint? item s).1 = parts
  induction parts generalizing p with
  | nil => exact fun _ he => he
  | cons part parts ih => exact fun _ he => ih _ (p.subset_errors_step part he)

end Grammar

open Grammar

/-! ## Whole queries -/

section Report

variable {tokens rest : List Token} {reading : Reading}
  (hrun : (condition (Parser.ofTokens tokens).finish maxDepth).run tokens = (reading, rest))
include hrun

/-- What is reported is what has been recorded, and what is left over. -/
theorem Expr.ofTokens_eq_error {errors : List SyntaxError} (hne : errors ≠ [])
    (herrors : errors = if (front (Parser.ofTokens tokens).finish rest).kind = .endOfInput then
      reading.errors else reading.errors ++
        [unexpected .connectorOrEnd (front (Parser.ofTokens tokens).finish rest)]) :
    Expr.ofTokens tokens = .error errors := by
  obtain ⟨e, errors, rfl⟩ := List.exists_cons_of_ne_nil hne
  have hrest : (condition (Parser.ofTokens tokens).finish maxDepth).run
    (Parser.ofTokens tokens).rest = (reading, rest) := hrun
  have hnone : (Parser.ofTokens tokens).errors = [] := rfl
  rw [Expr.ofTokens, Parser.parse, Parser.parseExpression, hrest]
  dsimp only
  rw [hnone, List.nil_append, ← herrors]
  cases reading.expr <;> rfl

/-- A mistake that the reading has is reported. -/
theorem Expr.ofTokens_eq_error_of_mem {e : SyntaxError} (he : e ∈ reading.errors) :
    ∃ errors, Expr.ofTokens tokens = .error errors ∧ e ∈ errors := by
  have hmem : e ∈ if (front (Parser.ofTokens tokens).finish rest).kind = .endOfInput then
      reading.errors else reading.errors ++
        [unexpected .connectorOrEnd (front (Parser.ofTokens tokens).finish rest)] := by
    split
    · exact he
    · exact List.mem_append_left _ he
  exact ⟨_, Expr.ofTokens_eq_error hrun (List.ne_nil_of_mem hmem) rfl, hmem⟩

/-- Tokens left over after the condition are reported as one mistake, after those of the reading. -/
theorem Expr.ofTokens_eq_error_of_rest {t : Token} {us : List Token} (hrest : rest = t :: us)
    (ht : t.kind ≠ .endOfInput) :
    Expr.ofTokens tokens = .error (reading.errors ++ [unexpected .connectorOrEnd t]) := by
  subst hrest
  exact Expr.ofTokens_eq_error hrun (by simp) (if_neg ht).symm

end Report

namespace Query

/-- Where the tokens of a query end. -/
def finish (q : Query) : Nat :=
  (Parser.ofTokens q.tokens).finish

/-- Only the last segment of a query stops at the end of the input. -/
theorem stop_ne_endOfInput (q : Query) {before : List Segment} {us : List Token} (hus : us ≠ [])
    (h : q.tokens = before.flatMap Segment.all ++ us) :
    ∀ b ∈ before, b.stop.kind ≠ .endOfInput := by
  obtain ⟨eof, -, -, hbody, -⟩ := q.exists_tokens_eq
  intro b hb
  refine hbody _ ?_
  rw [body, h, List.dropLast_append_of_ne_nil hus]
  exact List.mem_append_left _
    (List.mem_flatMap.2 ⟨b, hb, List.mem_append_right _ List.mem_cons_self⟩)

/-- **Mistakes are reported up to the first segment that overruns.**  Let a query be a chain of
segments, and let no segment before `s` overrun.  If `s` is no atom then one of the errors of the
query is at a token of `s` or at the one after it.  But if `s` overruns then nothing after it is
reported: all errors are at `s` and before. -/
theorem mistakes_reported_up_to_overrun (q : Query) {before after : List Segment} {s : Segment}
    (h : q.tokens = (before ++ s :: after).flatMap Segment.all)
    (hbefore : ∀ b ∈ before, ¬ b.Overruns q.finish) :
    ((¬ ∃ e, Atom maxDepth 0 s.tokens e) → ∃ errors, Expr.ofTokens q.tokens = .error errors ∧
        ∃ err ∈ errors, err.offset ∈ s.offsets) ∧
      (s.Overruns q.finish → ∃ errors, Expr.ofTokens q.tokens = .error errors ∧
        ∀ err ∈ errors, err.offset ∈ (before ++ [s]).flatMap Segment.offsets) := by
  have htokens : q.tokens =
      before.flatMap Segment.all ++ (s.tokens ++ s.stop :: after.flatMap Segment.all) := by
    rw [h]
    simp [Segment.all]
  obtain ⟨g, hg, hrun⟩ := exists_condition_run_eq q.finish
    (s.tokens ++ s.stop :: after.flatMap Segment.all) hbefore
    (q.stop_ne_endOfInput (by simp) htokens)
  rw [← htokens] at hrun
  by_cases hover : s.Overruns q.finish
  · obtain ⟨reading, t, us, hread, hblames, ht, hends⟩ :=
      Segment.run_of_overruns hover (after.flatMap Segment.all)
    have hstop : ∀ t' us', t :: us = t' :: us' → joint? t' = none := by
      rintro _ _ ⟨⟩
      exact joint?_eq_none_of_ends hends
    rw [hread, goOn_of_stop _ _ hstop] at hrun
    have herrors := Expr.ofTokens_eq_error_of_rest hrun rfl fun hend => by
      rw [hend] at hends
      cases hends
    refine ⟨fun _ => ⟨_, herrors, _, List.mem_append_right _ List.mem_cons_self,
      Segment.mem_offsets ht⟩, fun _ => ⟨_, herrors, fun err herr => ?_⟩⟩
    rw [List.flatMap_append, List.flatMap_singleton]
    rcases List.mem_append.1 herr with herr | herr
    · refine List.mem_append.2 ?_
      exact (hg.blames reading err herr).symm.imp_right (hblames err)
    · rw [List.mem_singleton.1 herr]
      exact List.mem_append_right _ (Segment.mem_offsets ht)
  · obtain ⟨reading, hread, hblames, hmistake⟩ :=
      Segment.run_of_not_overruns hover (after.flatMap Segment.all)
    rw [hread] at hrun
    refine ⟨fun hatom => ?_, fun hover' => absurd hover' hover⟩
    obtain ⟨err, herr⟩ := hmistake hatom
    have hrecorded := subset_errors_goOn (operandOf q.finish maxDepth) (g reading)
      (s.stop :: after.flatMap Segment.all) (hg.keeps reading herr)
    obtain ⟨errors, herrors, hmem⟩ := Expr.ofTokens_eq_error_of_mem hrun hrecorded
    exact ⟨errors, herrors, err, hmem, hblames err herr⟩

/-- A chain of three segments without an atom among them. -/
def strayQuery : Query where
  source := "a = AND b = 1 c OR d"
  tokens := [⟨.segment, "a", 0⟩, ⟨.comparator .equal, "=", 2⟩, ⟨.connector .and, "AND", 4⟩,
    ⟨.segment, "b", 8⟩, ⟨.comparator .equal, "=", 10⟩, ⟨.literal .number, "1", 12⟩,
    ⟨.segment, "c", 14⟩, ⟨.connector .or, "OR", 16⟩, ⟨.segment, "d", 19⟩, ⟨.endOfInput, "", 20⟩]
  ofText_source := by with_unfolding_all rfl

/-- The first segment of `strayQuery`, which breaks off. -/
def brokenSegment : Segment where
  tokens := [⟨.segment, "a", 0⟩, ⟨.comparator .equal, "=", 2⟩]
  stop := ⟨.connector .and, "AND", 4⟩
  balanced := rfl
  ends_stop := rfl

/-- The second segment of `strayQuery`, with `c` after an atom. -/
def straySegment : Segment where
  tokens := [⟨.segment, "b", 8⟩, ⟨.comparator .equal, "=", 10⟩, ⟨.literal .number, "1", 12⟩,
    ⟨.segment, "c", 14⟩]
  stop := ⟨.connector .or, "OR", 16⟩
  balanced := rfl
  ends_stop := rfl

/-- The last segment of `strayQuery`, which lacks a comparator. -/
def lostSegment : Segment where
  tokens := [⟨.segment, "d", 19⟩]
  stop := ⟨.endOfInput, "", 20⟩
  balanced := rfl
  ends_stop := rfl

theorem tokens_strayQuery : strayQuery.tokens =
    [brokenSegment, straySegment, lostSegment].flatMap Segment.all := rfl

theorem not_overruns_brokenSegment : ¬ brokenSegment.Overruns strayQuery.finish := by
  rintro ⟨expr, errors, extra, -, hrun⟩
  have hread : (atom strayQuery.finish maxDepth (inner strayQuery.finish maxDepth)).run
      brokenSegment.all = (⟨.error (unexpected .value brokenSegment.stop), []⟩,
        [brokenSegment.stop]) := by with_unfolding_all rfl
  rw [hread] at hrun
  cases hrun

theorem overruns_straySegment : straySegment.Overruns strayQuery.finish :=
  ⟨_, _, [⟨.segment, "c", 14⟩], List.cons_ne_nil _ _, by with_unfolding_all rfl⟩

theorem strayQuery_reports_up_to_overrun :
    strayQuery.tokens = ([brokenSegment] ++ straySegment :: [lostSegment]).flatMap Segment.all ∧
      (∀ b ∈ [brokenSegment], ¬ b.Overruns strayQuery.finish) ∧
      (∃ errors, Expr.ofTokens strayQuery.tokens = .error errors ∧
        ∃ err ∈ errors, err.offset ∈ straySegment.offsets) ∧
      ∃ errors, Expr.ofTokens strayQuery.tokens = .error errors ∧
        ∀ err ∈ errors, err.offset ∈ [0, 2, 4, 8, 10, 12, 14, 16] := by
  have hbefore : ∀ b ∈ [brokenSegment], ¬ b.Overruns strayQuery.finish := by
    simpa using not_overruns_brokenSegment
  have hatom : ¬ ∃ e, Atom maxDepth 0 straySegment.tokens e := fun ⟨_, h⟩ =>
    Segment.not_overruns_of_atom h overruns_straySegment
  have hreported := strayQuery.mistakes_reported_up_to_overrun tokens_strayQuery hbefore
  exact ⟨tokens_strayQuery, hbefore, hreported.1 hatom, hreported.2 overruns_straySegment⟩

/-- **A mistake can go unreported:** the last segment of `strayQuery` is no atom, and no error is at
its tokens or after them. -/
theorem strayQuery_loses_mistake :
    strayQuery.tokens = [brokenSegment, straySegment, lostSegment].flatMap Segment.all ∧
      (¬ ∃ e, Atom maxDepth 0 lostSegment.tokens e) ∧
      ∃ errors, Expr.ofTokens strayQuery.tokens = .error errors ∧
        ∀ err ∈ errors, err.offset ∉ lostSegment.offsets := by
  refine ⟨tokens_strayQuery, ?_, [unexpected .value brokenSegment.stop,
    unexpected .connectorOrEnd ⟨.segment, "c", 14⟩], by with_unfolding_all rfl, by decide⟩
  rintro ⟨e, hatom⟩
  have hok : Expr.ofTokens lostSegment.all = .ok e :=
    (Expr.ofTokens_eq_ok_iff rfl (by decide)).2 (.atom hatom)
  have herror : Expr.ofTokens lostSegment.all =
      .error [unexpected .comparator lostSegment.stop] := by with_unfolding_all rfl
  rw [herror] at hok
  cases hok

end Query

end FilterQuery
