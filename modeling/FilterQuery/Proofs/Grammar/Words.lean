import FilterQuery.Proofs.Grammar.Derivation
import FilterQuery.Proofs.Token.Text

/-!
# Proofs/Grammar/Words — a derivation does not see where its tokens stand

Tokens with the same words, wherever they come from, derive the same trees (`Condition.of_words`).
The proof splits the other tokens as the derivation splits its own.
-/

namespace FilterQuery.Grammar

open FilterQuery.Rule (Separated)

variable {α : Type} {limit : Nat}

/-- The tokens have the same kinds and spellings. -/
def SameWords (us ts : List Token) : Prop :=
  us.map Token.word = ts.map Token.word

theorem kind_eq_of_word {t u : Token} (h : u.word = t.word) : u.kind = t.kind :=
  congrArg Prod.fst h

theorem lexeme_eq_of_word {t u : Token} (h : u.word = t.word) : u.lexeme = t.lexeme :=
  congrArg Prod.snd h

/-! ## Splitting other tokens in the same way -/

namespace SameWords

theorem nil_right {us : List Token} (h : SameWords us []) : us = [] :=
  List.map_eq_nil_iff.1 h

theorem cons_right {us ts : List Token} {t : Token} (h : SameWords us (t :: ts)) :
    ∃ u us', us = u :: us' ∧ u.word = t.word ∧ SameWords us' ts :=
  List.map_eq_cons_iff.1 h

theorem append_right {us ts ts' : List Token} (h : SameWords us (ts ++ ts')) :
    ∃ vs vs', us = vs ++ vs' ∧ SameWords vs ts ∧ SameWords vs' ts' := by
  rw [SameWords, List.map_append] at h
  exact List.map_eq_append_iff.1 h

theorem singleton_right {us : List Token} {t : Token} (h : SameWords us [t]) :
    ∃ u, us = [u] ∧ u.word = t.word := by
  obtain ⟨u, us', rfl, hu, hnil⟩ := h.cons_right
  obtain rfl := hnil.nil_right
  exact ⟨u, rfl, hu⟩

end SameWords

theorem Enclosed.of_words {opener closer : Punct} {inner ts us : List Token}
    (h : Enclosed opener closer inner ts) (hus : SameWords us ts) :
    ∃ inner', SameWords inner' inner ∧ Enclosed opener closer inner' us := by
  obtain ⟨o, c, ho, hc, rfl⟩ := h
  obtain ⟨o', vs, rfl, ho', hvs⟩ := hus.cons_right
  obtain ⟨inner', last, rfl, hinner, hlast⟩ := hvs.append_right
  obtain ⟨c', rfl, hc'⟩ := hlast.singleton_right
  exact ⟨inner', hinner, o', c', (kind_eq_of_word ho').trans ho, (kind_eq_of_word hc').trans hc,
    rfl⟩

theorem isComma_of_word {t u : Token} (h : u.word = t.word) : isComma u = isComma t := by
  rw [isComma, isComma, kind_eq_of_word h]

/-- Other tokens with the words of separated parts are separated parts with the words of those. -/
theorem separated_of_words {parts : List (List Token × α)} {inner us : List Token}
    (h : Separated isComma (parts.map Prod.fst) inner) (hus : SameWords us inner) :
    ∃ others : List (List Token × α), others.map Prod.snd = parts.map Prod.snd ∧
      Separated isComma (others.map Prod.fst) us ∧
      ∀ q ∈ others, ∃ p ∈ parts, q.2 = p.2 ∧ SameWords q.1 p.1 := by
  induction parts generalizing inner us with
  | nil =>
    cases h
    obtain rfl := hus.nil_right
    exact ⟨[], rfl, .nil, by simp⟩
  | cons p parts ih =>
    rw [List.map_cons] at h
    generalize hmap : parts.map Prod.fst = rest at h
    cases h with
    | single =>
      obtain rfl : parts = [] := List.map_eq_nil_iff.1 hmap
      exact ⟨[(us, p.2)], rfl, .single us, by simpa using hus⟩
    | @cons _ _ ts t ht hne hsep =>
      subst hmap
      obtain ⟨vs, vs', rfl, hvs, hvs'⟩ := hus.append_right
      obtain ⟨u, ws, rfl, hu, hws⟩ := hvs'.cons_right
      obtain ⟨others, hsnd, hothers, hall⟩ := ih hsep hws
      have hne' : others.map Prod.fst ≠ [] := by
        intro hnil
        obtain rfl := List.map_eq_nil_iff.1 hnil
        exact hne (by simpa using congrArg List.length hsnd.symm)
      refine ⟨(vs, p.2) :: others, by rw [List.map_cons, List.map_cons, hsnd],
        .cons ((isComma_of_word hu).trans ht) hne' hothers, ?_⟩
      rintro q (_ | ⟨_, hq⟩)
      · exact ⟨p, List.mem_cons_self, rfl, hvs⟩
      · obtain ⟨p', hp', hrest⟩ := hall q hq
        exact ⟨p', List.mem_cons_of_mem p hp', hrest⟩

/-- Other tokens with the words of an entry are an entry of the same name and value. -/
theorem WrittenEntry.of_words {w : WrittenEntry} {us : List Token} (h : SameWords us w.tokens)
    (hkeyed : w.Keyed) : ∃ v : WrittenEntry, v.tokens = us ∧ v.Keyed ∧ v.entry = w.entry ∧
      SameWords v.value w.value := by
  obtain ⟨key, vs, rfl, hkey, hvs⟩ := h.cons_right
  obtain ⟨colon, value, rfl, hcolon, hvalue⟩ := hvs.cons_right
  refine ⟨⟨key, colon, value, w.name, w.expr⟩, rfl, ⟨(kind_eq_of_word hkey).trans hkeyed.key, ?_,
    (kind_eq_of_word hcolon).trans hkeyed.colon⟩, rfl, hvalue⟩
  rw [lexeme_eq_of_word hkey]
  exact hkeyed.name

theorem written_of_words {written : List WrittenEntry} {inner us : List Token}
    (hkeyed : ∀ w ∈ written, w.Keyed)
    (h : Separated isComma (written.map WrittenEntry.tokens) inner) (hus : SameWords us inner) :
    ∃ others : List WrittenEntry, others.map WrittenEntry.entry = written.map WrittenEntry.entry ∧
      Separated isComma (others.map WrittenEntry.tokens) us ∧
      ∀ v ∈ others, v.Keyed ∧ ∃ w ∈ written, v.expr = w.expr ∧ SameWords v.value w.value := by
  have hparts : (written.map fun w => (w.tokens, w)).map Prod.fst =
      written.map WrittenEntry.tokens := List.map_map
  obtain ⟨others, hsnd, hsep, hall⟩ := separated_of_words (hparts ▸ h) hus
  have hentries : ∀ x ∈ others.map fun q => (q.1, q.2.entry), ∃ v : WrittenEntry,
      (v.Keyed ∧ ∃ w ∈ written, v.expr = w.expr ∧ SameWords v.value w.value) ∧ v.part = x := by
    refine List.forall_mem_map.2 fun q hq => ?_
    obtain ⟨p, hp, heq, hwords⟩ := hall q hq
    obtain ⟨w, hw, rfl⟩ := List.mem_map.1 hp
    obtain ⟨v, htokens, hv, hentry, hvalue⟩ := WrittenEntry.of_words hwords (hkeyed w hw)
    refine ⟨v, ⟨hv, w, hw, congrArg Prod.snd hentry, hvalue⟩, ?_⟩
    rw [heq, WrittenEntry.part, htokens, hentry]
  obtain ⟨vs, hvs, hmap⟩ := Rule.exists_map_eq hentries
  refine ⟨vs, ?_, ?_, hvs⟩
  · have := congrArg (List.map Prod.snd) hmap
    rw [List.map_map, List.map_map] at this
    have hwritten : others.map Prod.snd = written := by
      rw [hsnd, List.map_map]
      exact List.map_id written
    rw [← hwritten, List.map_map]
    exact this
  · have := congrArg (List.map Prod.fst) hmap
    rw [List.map_map, List.map_map] at this
    have htokens : vs.map WrittenEntry.tokens = others.map Prod.fst := this
    rwa [htokens]

mutual

/-- **An operand is one by its words**: where the tokens stand does not matter. -/
theorem Operand.of_words {depth : Nat} : ∀ {ts us : List Token} {e : Expr},
    Operand limit depth ts e → SameWords us ts → Operand limit depth us e
  | _, _, _, @Operand.literal _ _ t _ _ ht hread, hus => by
    obtain ⟨u, rfl, hu⟩ := hus.singleton_right
    rw [← lexeme_eq_of_word hu] at hread ⊢
    exact .literal ((kind_eq_of_word hu).trans ht) hread
  | _, _, _, .array hdepth hparts hsep henc, hus => by
    obtain ⟨inner, hinner, henc⟩ := henc.of_words hus
    obtain ⟨others, hsnd, hsep, hall⟩ := separated_of_words hsep hinner
    rw [← hsnd]
    refine .array hdepth (fun q hq => ?_) hsep henc
    obtain ⟨p, hp, heq, hwords⟩ := hall q hq
    rw [heq]
    exact (hparts p hp).of_words hwords
  | _, _, _, .object hdepth hkeyed hvalues hsep henc hmerges, hus => by
    obtain ⟨inner, hinner, henc⟩ := henc.of_words hus
    obtain ⟨others, hentries, hsep, hall⟩ := written_of_words hkeyed hsep hinner
    rw [← hentries] at hmerges
    refine .object hdepth (fun v hv => (hall v hv).1) (fun v hv => ?_) hsep henc hmerges
    obtain ⟨-, w, hw, heq, hwords⟩ := hall v hv
    rw [heq]
    exact (hvalues w hw).of_words hwords
  | _, _, _, .path hdepth hpath hsteps, hus => .path hdepth (hpath.of_words hus) hsteps

theorem Path.of_words {depth : Nat} : ∀ {steps : Nat} {ts us : List Token} {e : Expr},
    Path limit depth ts steps e → SameWords us ts → Path limit depth us steps e
  | _, _, _, _, .name ht, hus => by
    obtain ⟨u, rfl, hu⟩ := hus.singleton_right
    rw [← lexeme_eq_of_word hu]
    exact .name ((kind_eq_of_word hu).trans ht)
  | _, _, _, _, .step hparent hperiod ht, hus => by
    obtain ⟨vs, ws, rfl, hvs, hws⟩ := hus.append_right
    obtain ⟨p, ws, rfl, hp, hws⟩ := hws.cons_right
    obtain ⟨u, rfl, hu⟩ := hws.singleton_right
    rw [← lexeme_eq_of_word hu]
    exact .step (hparent.of_words hvs) ((kind_eq_of_word hp).trans hperiod)
      ((kind_eq_of_word hu).trans ht)
  | _, _, _, _, .call hcallee hcall hparts hsep henc, hus => by
    obtain ⟨vs, ws, rfl, hvs, hws⟩ := hus.append_right
    obtain ⟨inner, hinner, henc⟩ := henc.of_words hws
    obtain ⟨others, hsnd, hsep, hall⟩ := separated_of_words hsep hinner
    rw [← hsnd]
    refine .call (hcallee.of_words hvs) hcall (fun q hq => ?_) hsep henc
    obtain ⟨p, hp, heq, hwords⟩ := hall q hq
    rw [heq]
    exact (hparts p hp).of_words hwords
  | _, _, _, _, .periodCall hcallee hcall hperiod hparts hsep henc, hus => by
    obtain ⟨vs, ws, rfl, hvs, hws⟩ := hus.append_right
    obtain ⟨p, ws, rfl, hp, hws⟩ := hws.cons_right
    obtain ⟨inner, hinner, henc⟩ := henc.of_words hws
    obtain ⟨others, hsnd, hsep, hall⟩ := separated_of_words hsep hinner
    rw [← hsnd]
    refine .periodCall (hcallee.of_words hvs) hcall ((kind_eq_of_word hp).trans hperiod)
      (fun q hq => ?_) hsep henc
    obtain ⟨p, hp, heq, hwords⟩ := hall q hq
    rw [heq]
    exact (hparts p hp).of_words hwords

end

mutual

/-- The same holds of comparisons and groups. -/
theorem Atom.of_words {depth : Nat} : ∀ {ts us : List Token} {e : Expr},
    Atom limit depth ts e → SameWords us ts → Atom limit depth us e
  | _, _, _, .comparison hleft ht hright, hus => by
    obtain ⟨vs, ws, rfl, hvs, hws⟩ := hus.append_right
    obtain ⟨u, ws, rfl, hu, hws⟩ := hws.cons_right
    exact .comparison (hleft.of_words hvs) ((kind_eq_of_word hu).trans ht) (hright.of_words hws)
  | _, _, _, .group hdepth hcondition henc, hus => by
    obtain ⟨inner, hinner, henc⟩ := henc.of_words hus
    exact .group hdepth (hcondition.of_words hinner) henc

theorem Chain.of_words {depth : Nat} : ∀ {ts us : List Token} {changes : Nat} {op : Connector}
    {operands : List Expr}, Chain limit depth ts changes op operands → SameWords us ts →
      Chain limit depth us changes op operands
  | _, _, _, _, _, .pair hleft ht hright, hus => by
    obtain ⟨vs, ws, rfl, hvs, hws⟩ := hus.append_right
    obtain ⟨u, ws, rfl, hu, hws⟩ := hws.cons_right
    exact .pair (hleft.of_words hvs) ((kind_eq_of_word hu).trans ht) (hright.of_words hws)
  | _, _, _, _, _, .same hchain ht hright, hus => by
    obtain ⟨vs, ws, rfl, hvs, hws⟩ := hus.append_right
    obtain ⟨u, ws, rfl, hu, hws⟩ := hws.cons_right
    exact .same (hchain.of_words hvs) ((kind_eq_of_word hu).trans ht) (hright.of_words hws)
  | _, _, _, _, _, .change hchain hop ht hright, hus => by
    obtain ⟨vs, ws, rfl, hvs, hws⟩ := hus.append_right
    obtain ⟨u, ws, rfl, hu, hws⟩ := hws.cons_right
    exact .change (hchain.of_words hvs) hop ((kind_eq_of_word hu).trans ht) (hright.of_words hws)

/-- **Tokens with the same words derive the same conditions.** -/
theorem Condition.of_words {depth : Nat} : ∀ {ts us : List Token} {e : Expr},
    Condition limit depth ts e → SameWords us ts → Condition limit depth us e
  | _, _, _, .atom hatom, hus => .atom (hatom.of_words hus)
  | _, _, _, .chain hchain hchanges, hus => .chain (hchain.of_words hus) hchanges

end

end FilterQuery.Grammar
