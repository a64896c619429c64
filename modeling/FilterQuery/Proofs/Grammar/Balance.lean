import FilterQuery.Grammar.Brackets

/-!
# Proofs/Grammar/Balance — tokens whose brackets match, and skipping them

    f ( [ 1 = , ( x OR y ) ] ) = 2   AND   …
    └─────┘ └────────────────────┘
     taken          skipped

`Balance.run` follows the open brackets of tokens that can be a part of one operand of a chain: each
closing bracket closes the innermost open one, and connectors stand inside of brackets.  On such
tokens the brackets that the reader keeps while it skips are the open ones
(`trackAll_ofStack_of_run`), and so it stops where all that the broken atom has opened is closed
(`exists_skip_of_within`): before the next connector outside of brackets or before the parenthesis
of the group around.  A whole segment is skipped from anywhere in it
(`synchronize_stops_at_segment_end`).
-/

namespace FilterQuery

namespace Balance

/-- Closes `opener` if it is the innermost open bracket. -/
def pop (opener : Punct) : List Punct → Option (List Punct)
  | p :: opened => if p = opener then some opened else none
  | [] => none

/-- What is open after a token, the innermost first. -/
def step (opened : List Punct) : Token.Kind → Option (List Punct)
  | .punct .openParen => some (.openParen :: opened)
  | .punct .openBrace => some (.openBrace :: opened)
  | .punct .openBracket => some (.openBracket :: opened)
  | .punct .closeParen => pop .openParen opened
  | .punct .closeBrace => pop .openBrace opened
  | .punct .closeBracket => pop .openBracket opened
  | .connector _ => if opened = [] then none else some opened
  | .endOfInput => none
  | _ => some opened

/-- What is open after tokens. -/
def run : List Punct → List Token → Option (List Punct)
  | opened, [] => some opened
  | opened, t :: ts => (step opened t.kind).bind (run · ts)

/-- Whether a token ends what stands between the connectors of a chain. -/
def ends : Token.Kind → Bool
  | .connector _ | .endOfInput => true
  | _ => false

variable {opened opened' base : List Punct} {ts us : List Token}

/-- A balanced run takes its first token and then the others. -/
theorem run_cons_eq_some {t : Token} : run opened (t :: ts) = some opened' ↔
    ∃ now, step opened t.kind = some now ∧ run now ts = some opened' :=
  Option.bind_eq_some_iff

/-- Two runs are one after the other. -/
theorem run_append (opened : List Punct) (ts us : List Token) :
    run opened (ts ++ us) = (run opened ts).bind (run · us) := by
  induction ts generalizing opened with
  | nil => rfl
  | cons t ts ih =>
    rw [List.cons_append, run, run, Option.bind_assoc]
    exact congrArg _ (funext ih)

/-- A run goes on from where the first part leaves it. -/
theorem run_append_of_run (h : run opened ts = some opened') (us : List Token) :
    run opened (ts ++ us) = run opened' us := by
  rw [run_append, h]
  rfl

/-- With nothing open a segment ends at what ends segments. -/
theorem step_nil_of_ends {k : Token.Kind} (h : ends k = true) : step [] k = none := by
  cases k <;> first | rfl | cases h

/-- A token of a segment with nothing open does not end it. -/
theorem ends_eq_false_of_run {t : Token} (h : run [] (t :: ts) = some opened) :
    ends t.kind = false := by
  refine Bool.eq_false_iff.2 fun hends => ?_
  rw [run, step_nil_of_ends hends] at h
  cases h

/-- Only the bracket opened last can be closed. -/
theorem pop_eq_some {opener : Punct} : pop opener opened = some opened' ↔
    opened = opener :: opened' := by
  cases opened with
  | nil => simp [pop]
  | cons p ps =>
    rw [pop]
    split
    · next hp => simp [hp]
    · next hp => simp [hp]

/-! ## More brackets around -/

/-- Brackets further out do not matter for closing. -/
theorem pop_append {opener : Punct} (h : pop opener opened = some opened') (base : List Punct) :
    pop opener (opened ++ base) = some (opened' ++ base) := by
  rw [pop_eq_some.1 h]
  exact if_pos rfl

/-- What is open around tokens changes nothing inside. -/
theorem step_append {k : Token.Kind} (h : step opened k = some opened') (base : List Punct) :
    step (opened ++ base) k = some (opened' ++ base) := by
  cases k with
  | punct p =>
    cases p with
    | openParen | openBrace | openBracket | comma | colon | period =>
      cases h
      rfl
    | closeParen | closeBrace | closeBracket => exact pop_append h base
  | connector op =>
    obtain ⟨hopened, h⟩ := Option.ite_none_left_eq_some.1 h
    cases h
    exact if_neg fun hnil => hopened (List.append_eq_nil_iff.1 hnil).1
  | endOfInput => cases h
  | literal l | segment | comparator op =>
    cases h
    rfl

/-- Brackets further out do not matter for a run. -/
theorem run_append_base (h : run opened ts = some opened') (base : List Punct) :
    run (opened ++ base) ts = some (opened' ++ base) := by
  induction ts generalizing opened with
  | nil =>
    cases h
    rfl
  | cons t ts ih =>
    obtain ⟨now, hstep, hrun⟩ := run_cons_eq_some.1 h
    exact run_cons_eq_some.2 ⟨now ++ base, step_append hstep base, ih hrun⟩

/-! ## Up to the end of an operand -/

/-- The brackets of the tokens before `rest` match, after `opened`. -/
def Within (opened : List Punct) (s rest : List Token) : Prop :=
  ∃ ts, s = ts ++ rest ∧ run opened ts = some []

/-- **Tokens whose brackets match do not go beyond the end of an operand.** -/
theorem Within.advance {stop : Token} {after r : List Token} (hstop : ends stop.kind = true)
    (h : Within opened (ts ++ r) (stop :: after)) (hts : run opened ts = some opened') :
    Within opened' r (stop :: after) := by
  obtain ⟨us, hus, hrun⟩ := h
  rcases List.append_eq_append_iff.1 hus with ⟨vs, rfl, rfl⟩ | ⟨vs, rfl, hvs⟩
  · exact ⟨vs, rfl, by rwa [run_append_of_run hts] at hrun⟩
  · cases vs with
    | nil =>
      rw [List.append_nil, hrun] at hts
      cases hts
      exact ⟨[], hvs.symm, rfl⟩
    | cons t vs =>
      -- the tokens would take `stop` with nothing open
      obtain ⟨rfl, -⟩ := List.cons_eq_cons.1 hvs
      rw [run_append_of_run hrun, run, step_nil_of_ends hstop] at hts
      cases hts

/-- Going one token on inside a segment stays inside it. -/
theorem Within.advance_cons {stop t : Token} {after r : List Token}
    (hstop : ends stop.kind = true) (h : Within opened (t :: r) (stop :: after))
    (ht : step opened t.kind = some opened') : Within opened' r (stop :: after) :=
  Within.advance hstop (show Within opened ([t] ++ r) (stop :: after) from h)
    (run_cons_eq_some.2 ⟨opened', ht, rfl⟩)

/-! ## The brackets that the reader keeps -/

/-- The reader's record of open brackets. -/
def ofStack (opened : List Punct) : Brackets :=
  ⟨opened, opened.count .openParen⟩

/-- Closing a bracket that matches is `pop`. -/
theorem close_ofStack {opener : Punct} (hparen : opener ≠ .openParen)
    (h : pop opener opened = some opened') :
    (ofStack opened).close opener = ofStack opened' := by
  obtain rfl := pop_eq_some.1 h
  rw [ofStack, ofStack, List.count_cons_of_ne hparen]
  exact if_pos rfl

/-- Closing a parenthesis that matches is `pop` too, and the count follows. -/
theorem closeParen_ofStack (h : pop .openParen opened = some opened') :
    (ofStack opened).closeParen = ofStack opened' := by
  obtain rfl := pop_eq_some.1 h
  rw [ofStack, ofStack, List.count_cons_self]
  rfl

/-- **The reader's record is right as long as the brackets match.** -/
theorem track_ofStack {k : Token.Kind} (h : step opened k = some opened') :
    (ofStack opened).track k = ofStack opened' := by
  cases k with
  | punct p =>
    cases p with
    | openParen | openBrace | openBracket | comma | colon | period =>
      cases h
      simp [Brackets.track, Brackets.push, ofStack]
    | closeParen => exact closeParen_ofStack h
    | closeBrace | closeBracket => exact close_ofStack (by decide) h
  | connector op =>
    cases (Option.ite_none_left_eq_some.1 h).2
    rfl
  | endOfInput => cases h
  | literal l | segment | comparator op =>
    cases h
    rfl

/-- **Over balanced tokens the brackets kept are the ones open.** -/
theorem trackAll_ofStack_of_run (h : run opened ts = some opened') :
    (ofStack opened).trackAll ts = ofStack opened' := by
  induction ts generalizing opened with
  | nil =>
    cases h
    rfl
  | cons t ts ih =>
    obtain ⟨now, hstep, hrun⟩ := run_cons_eq_some.1 h
    rw [Brackets.trackAll, List.foldl_cons, track_ofStack hstep]
    exact ih hrun

/-! ## Skipping -/

/-- What may be open around a condition: a group, or nothing. -/
def IsAround (base : List Punct) : Prop :=
  base = [] ∨ ∃ outer, base = .openParen :: outer

/-- With a bracket open, what is open around it does not count. -/
theorem exists_step_cons {p : Punct} {k : Token.Kind} {now : List Punct}
    (h : step (p :: opened ++ base) k = some now) :
    ∃ opened', step (p :: opened) k = some opened' := by
  cases k with
  | punct q =>
    cases q with
    | openParen | openBrace | openBracket | comma | colon | period => exact ⟨_, rfl⟩
    | closeParen | closeBrace | closeBracket =>
      obtain ⟨rfl, -⟩ := List.cons_eq_cons.1 (pop_eq_some.1 h)
      exact ⟨opened, by simp [step, pop]⟩
  | connector op => exact ⟨p :: opened, by simp [step]⟩
  | endOfInput => cases h
  | literal l | segment | comparator op => exact ⟨_, rfl⟩

/-- In a group, with nothing else open, the reader stops before what it could not skip. -/
theorem exists_step_nil {outer : List Punct} {k : Token.Kind} {now : List Punct}
    (h : step (.openParen :: outer) k = some now) (hstop : (ofStack []).stopsAt k = false) :
    ∃ opened', step [] k = some opened' := by
  cases k with
  | punct q =>
    cases q with
    | openParen | openBrace | openBracket | comma | colon | period => exact ⟨_, rfl⟩
    | closeParen => cases hstop
    | closeBrace | closeBracket => cases h
  | connector op => cases hstop
  | endOfInput => cases h
  | literal l | segment | comparator op => exact ⟨_, rfl⟩

/-- **A token at which the reader goes on skipping closes no more than the broken atom has
opened.** -/
theorem exists_step_of_not_stopsAt (hbase : IsAround base) {k : Token.Kind} {now : List Punct}
    (h : step (opened ++ base) k = some now) (hstop : (ofStack opened).stopsAt k = false) :
    ∃ opened', step opened k = some opened' ∧ now = opened' ++ base := by
  obtain ⟨opened', hstep⟩ : ∃ opened', step opened k = some opened' := by
    cases opened with
    | cons p opened => exact exists_step_cons h
    | nil =>
      rcases hbase with rfl | ⟨outer, rfl⟩
      · exact ⟨now, h⟩
      · exact exists_step_nil h hstop
  exact ⟨opened', hstep, Option.some.inj (h.symm.trans (step_append hstep base))⟩

/-- **Where the reader stops, the broken atom has closed all that it has opened,** and it stands in
a group. -/
theorem eq_nil_of_stopsAt {k : Token.Kind} {now : List Punct}
    (h : step (opened ++ base) k = some now) (hstop : (ofStack opened).stopsAt k = true) :
    opened = [] ∧ base ≠ [] := by
  have hopened : opened = [] := by
    cases k with
    | punct q =>
      cases q with
      | closeParen =>
        have hcount : opened.count .openParen = 0 := beq_iff_eq.1 hstop
        cases opened with
        | nil => rfl
        | cons p opened =>
          obtain ⟨rfl, -⟩ := List.cons_eq_cons.1 (pop_eq_some.1 h)
          simp at hcount
      | openParen | openBrace | openBracket | closeBrace | closeBracket | comma | colon | period =>
        cases hstop
    | connector op => exact List.isEmpty_iff.1 hstop
    | endOfInput => cases h
    | literal l | segment | comparator op => cases hstop
  refine ⟨hopened, fun hbase => ?_⟩
  subst hopened hbase
  cases k with
  | punct q =>
    cases q with
    | closeParen | closeBrace | closeBracket => cases h
    | openParen | openBrace | openBracket | comma | colon | period => cases hstop
  | connector op | endOfInput => cases h
  | literal l | segment | comparator op => cases hstop

/-- **After an error the reader skips to the end of the atom and no further.**  What it skips closes
what the atom has opened, and it stops there before anything that starts as what is left does.
Outside of groups that is the end of the operand. -/
theorem exists_skip_of_within (hbase : IsAround base) {stop : Token} {after : List Token}
    (hstop : ends stop.kind = true) {s : List Token}
    (h : Within (opened ++ base) s (stop :: after)) :
    ∃ us t r, s = us ++ t :: r ∧ run opened us = some [] ∧
      (∀ r', (ofStack opened).skip (us ++ t :: r') = t :: r') ∧
      (base = [] → t :: r = stop :: after) := by
  induction s generalizing opened with
  | nil =>
    obtain ⟨us, hus, -⟩ := h
    simp at hus
  | cons t s ih =>
    obtain ⟨us, hus, hrun⟩ := h
    cases us with
    | nil =>
      obtain ⟨rfl, rfl⟩ := List.cons_eq_cons.1 hus
      obtain ⟨rfl, rfl⟩ := List.append_eq_nil_iff.1 (Option.some.inj hrun)
      have hstops : (ofStack []).stopsAt t.kind = true := by
        cases hkind : t.kind <;> rw [hkind] at hstop <;> first | rfl | cases hstop
      exact ⟨[], t, s, rfl, rfl, fun r' => if_pos hstops, fun _ => rfl⟩
    | cons u us =>
      obtain ⟨rfl, rfl⟩ := List.cons_eq_cons.1 hus
      obtain ⟨now, hstep, hrun⟩ := run_cons_eq_some.1 hrun
      by_cases hstops : (ofStack opened).stopsAt t.kind = true
      · obtain ⟨rfl, hne⟩ := eq_nil_of_stopsAt hstep hstops
        exact ⟨[], t, _, rfl, rfl, fun r' => if_pos hstops, fun hnil => absurd hnil hne⟩
      · have hgo : (ofStack opened).stopsAt t.kind = false := by simpa using hstops
        obtain ⟨opened', hopened, rfl⟩ := exists_step_of_not_stopsAt hbase hstep hgo
        obtain ⟨vs, t', r, hs, hvs, hskip, hend⟩ := ih ⟨us, rfl, hrun⟩
        refine ⟨t :: vs, t', r, congrArg (t :: ·) hs, run_cons_eq_some.2 ⟨opened', hopened, hvs⟩,
          fun r' => ?_, hend⟩
        rw [List.cons_append, Brackets.skip, if_neg hstops, track_ofStack hopened]
        exact hskip r'

/-! ## Whole segments -/

/-- A balanced run passes through each of its points. -/
theorem ends_nil_of_run (h : run [] (ts ++ us) = some opened') :
    ∃ now, run [] ts = some now ∧ run now us = some opened' := by
  rw [run_append] at h
  exact Option.bind_eq_some_iff.1 h

/-- **Within a segment the reader does not stop:** nothing but a group around could make it. -/
theorem stopsAt_eq_false_of_step {k : Token.Kind} {now : List Punct} (h : step opened k = some now) :
    (ofStack opened).stopsAt k = false := by
  refine Bool.eq_false_iff.2 fun hstop => ?_
  have hbase : step (opened ++ []) k = some now := by rwa [List.append_nil]
  exact (eq_nil_of_stopsAt hbase hstop).2 rfl

/-- What is left of a segment is skipped, up to where the reader stops with nothing open. -/
theorem skip_append_of_run {rest : List Token} (h : run opened ts = some [])
    (hrest : ∀ t ∈ rest.head?, (ofStack []).stopsAt t.kind = true) :
    (ofStack opened).skip (ts ++ rest) = rest := by
  induction ts generalizing opened with
  | nil =>
    obtain rfl := Option.some.inj h
    cases rest with
    | nil => rfl
    | cons t rest => exact if_pos (hrest t rfl)
  | cons t ts ih =>
    obtain ⟨now, hstep, hrun⟩ := run_cons_eq_some.1 h
    have hgo : ¬ (ofStack opened).stopsAt t.kind = true := by
      rw [stopsAt_eq_false_of_step hstep]
      exact Bool.false_ne_true
    rw [List.cons_append, Brackets.skip, if_neg hgo, track_ofStack hstep]
    exact ih hrun

/-- Where a segment may end: before a connector, before a closing parenthesis, or at the end. -/
def closes : Token.Kind → Bool
  | .connector _ | .endOfInput | .punct .closeParen => true
  | _ => false

/-- With nothing open skipping stops at a closing bracket. -/
theorem stopsAt_nil_of_closes {k : Token.Kind} (h : closes k = true) :
    (ofStack []).stopsAt k = true := by
  cases k with
  | connector op => rfl
  | endOfInput => rfl
  | punct p => cases p <;> first | rfl | cases h
  | literal l => cases h
  | segment => cases h
  | comparator op => cases h

end Balance

open Balance

/-! ## The record that the reader keeps -/

namespace Brackets

/-- **Popping to a parenthesis takes one off the number of those on the stack,** if there is one. -/
theorem parens_popParen {parens : Nat} {stack : List Punct} (h : parens = stack.count .openParen) :
    (popParen parens stack).parens = (popParen parens stack).stack.count .openParen := by
  induction stack with
  | nil => exact h
  | cons p stack ih =>
    rw [popParen]
    split
    · next hp =>
      rw [hp, List.count_cons_self] at h
      exact Nat.sub_eq_of_eq_add h
    · next hp =>
      rw [List.count_cons_of_ne hp] at h
      exact ih h

/-- Closing a bracket that is no parenthesis closes no parenthesis. -/
theorem count_close {opener : Punct} (h : opener ≠ .openParen) (b : Brackets) :
    (b.close opener).stack.count .openParen = b.stack.count .openParen := by
  rw [close]
  split
  · next hhead =>
    obtain ⟨stack, hstack⟩ := List.head?_eq_some_iff.1 hhead
    rw [hstack, List.tail_cons, List.count_cons_of_ne h]
  · rfl

/-- **The number beside the stack is that of the parentheses on it,** whatever the next token. -/
theorem parens_track {b : Brackets} (h : b.parens = b.stack.count .openParen) (k : Token.Kind) :
    (b.track k).parens = (b.track k).stack.count .openParen := by
  have hclose : ∀ opener, (b.close opener).parens = b.parens := fun opener => by
    rw [close]
    split <;> rfl
  cases k with
  | punct p =>
    cases p with
    | openParen => exact (congrArg (· + 1) h).trans List.count_cons_self.symm
    | openBrace | openBracket => exact h.trans (List.count_cons_of_ne (by decide)).symm
    | closeParen =>
      rw [track, closeParen]
      split
      · exact h
      · exact parens_popParen h
    | closeBrace | closeBracket =>
      exact (hclose _).trans (h.trans (count_close (by decide) b).symm)
    | comma | colon | period => exact h
  | literal l | segment | connector op | comparator op | endOfInput => exact h

/-- The parentheses counted are those on the stack, whatever tokens are passed. -/
theorem parens_trackAll {b : Brackets} (h : b.parens = b.stack.count .openParen)
    (tokens : List Token) :
    (b.trackAll tokens).parens = (b.trackAll tokens).stack.count .openParen := by
  induction tokens generalizing b with
  | nil => exact h
  | cons t tokens ih => exact ih (parens_track h t.kind)

end Brackets

/-- From anywhere in a segment the reader skips to the end of it. -/
theorem synchronize_run_of_balanced {ts us vs rest : List Token} (hts : ts = us ++ vs)
    (h : run [] ts = some []) (hrest : ∀ t ∈ rest.head?, closes t.kind = true) :
    (synchronize (ts ++ rest)).run (vs ++ rest) = ((), rest) := by
  subst hts
  obtain ⟨opened, hus, hvs⟩ := ends_nil_of_run h
  have hread : (us ++ vs ++ rest).take ((us ++ vs ++ rest).length - (vs ++ rest).length) = us := by
    rw [List.append_assoc, List.length_append, Nat.add_sub_cancel, List.take_left]
  have htrack : Brackets.empty.trackAll us = ofStack opened := trackAll_ofStack_of_run hus
  have hskip := skip_append_of_run hvs fun t ht => stopsAt_nil_of_closes (hrest t ht)
  have hrun : (synchronize (us ++ vs ++ rest)).run (vs ++ rest) =
      ((), (Brackets.empty.trackAll ((us ++ vs ++ rest).take
        ((us ++ vs ++ rest).length - (vs ++ rest).length))).skip (vs ++ rest)) := rfl
  rw [hrun, hread, htrack, hskip]

/-- **After an error the reader comes out exactly at the end of the segment.**  Let the brackets of
a segment match, with no connector outside of them and no end of input, and let a connector, the end
of input or a closing parenthesis come after it, or nothing at all.  Then skipping ends there,
wherever in the segment it starts, its ends included.  And after any tokens whatsoever the number of
parentheses that the reader keeps is that of the parentheses on its stack. -/
theorem synchronize_stops_at_segment_end {ts rest : List Token} (h : run [] ts = some [])
    (hrest : ∀ t ∈ rest.head?, closes t.kind = true) :
    (∀ us vs, ts = us ++ vs → (synchronize (ts ++ rest)).run (vs ++ rest) = ((), rest)) ∧
      ∀ tokens, (Brackets.empty.trackAll tokens).parens =
        (Brackets.empty.trackAll tokens).stack.count .openParen :=
  ⟨fun _ _ hts => synchronize_run_of_balanced hts h hrest, Brackets.parens_trackAll rfl⟩

/-- `f([1 = , (x OR y)]) = 2`, with a comparator where there can be none. -/
def misplacedSegment : List Token :=
  [⟨.segment, "f", 0⟩, ⟨.punct .openParen, "(", 1⟩, ⟨.punct .openBracket, "[", 2⟩,
    ⟨.literal .number, "1", 3⟩, ⟨.comparator .equal, "=", 5⟩, ⟨.punct .comma, ",", 7⟩,
    ⟨.punct .openParen, "(", 9⟩, ⟨.segment, "x", 10⟩, ⟨.connector .or, "OR", 12⟩,
    ⟨.segment, "y", 15⟩, ⟨.punct .closeParen, ")", 16⟩, ⟨.punct .closeBracket, "]", 17⟩,
    ⟨.punct .closeParen, ")", 18⟩, ⟨.comparator .equal, "=", 20⟩, ⟨.literal .number, "2", 22⟩]

/-- The parenthesis of a group around `misplacedSegment`. -/
def groupEnd : Token :=
  ⟨.punct .closeParen, ")", 23⟩

theorem synchronize_misplacedSegment : run [] misplacedSegment = some [] ∧
    (∀ t ∈ [groupEnd].head?, closes t.kind = true) ∧
    (synchronize (misplacedSegment ++ [groupEnd])).run
      (misplacedSegment.drop 4 ++ [groupEnd]) = ((), [groupEnd]) := by
  have hend : ∀ t ∈ [groupEnd].head?, closes t.kind = true := by
    rintro t ⟨⟩
    rfl
  have hrun : run [] misplacedSegment = some [] := rfl
  have hstops := synchronize_stops_at_segment_end hrun hend
  exact ⟨hrun, hend, hstops.1 (misplacedSegment.take 4) _ rfl⟩

end FilterQuery
