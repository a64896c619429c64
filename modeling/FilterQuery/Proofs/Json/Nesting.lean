import FilterQuery.Proofs.Json.Acceptance

/-!
# Proofs/Json/Nesting — how deep a JSON text nests

    [ 1 , { " a [ \" " : [ ] } ] ──scan──▸ 3          brackets in strings do not count

`nesting` counts open brackets from left to right and knows nothing of the grammar, only where
strings start and end.  For a value in the grammar the count is back where it was at the end
(`Written.exists_nests`), and the most it has come to is the depth of the value.  So a text that is
read and nests no deeper than some depth is a value of that depth (`written_of_read`).
-/

namespace FilterQuery.Json

open FilterQuery.Rule (Separated)

/-! ## The count -/

/-- Where a scan stands: outside of strings, inside of one, or just after a backslash in one. -/
inductive Place where
  | outside
  | inside
  | escaped

namespace Place

/-- The place after a character. -/
def next : Place → Char → Place
  | outside, c => if c = '"' then inside else outside
  | inside, c => if c = '"' then outside else if c = '\\' then escaped else inside
  | escaped, _ => inside

/-- How many brackets are open after a character, when `opened` were before it. -/
def count : Place → Nat → Char → Nat
  | outside, opened, c =>
    if c ∈ ['[', '\x7b'] then opened + 1 else if c ∈ [']', '\x7d'] then opened - 1 else opened
  | _, opened, _ => opened

end Place

/-- The most brackets that are open at one time, from a place where `opened` are. -/
def deepest (place : Place) (opened : Nat) : List Char → Nat
  | [] => opened
  | c :: cs => max opened (deepest (place.next c) (place.count opened c) cs)

/-- How deep the arrays and objects of a text nest. -/
def nesting (text : String) : Nat :=
  deepest .outside 0 text.toList

theorem le_deepest (place : Place) (opened : Nat) (cs : List Char) :
    opened ≤ deepest place opened cs := by
  cases cs with
  | nil => exact Nat.le_refl _
  | cons c cs => exact Nat.le_max_left _ _

/-- A character that changes neither the place nor the count is passed over. -/
theorem deepest_cons {place place' : Place} {c : Char} (hnext : place.next c = place')
    (hcount : ∀ opened, place.count opened c = opened) (opened : Nat) (cs : List Char) :
    deepest place opened (c :: cs) = deepest place' opened cs := by
  rw [deepest, hnext, hcount, Nat.max_eq_right (le_deepest _ _ _)]

/-! ## Texts that close what they open -/

/-- The text opens `n` brackets at most above those that are open, and closes them all. -/
def Nests (n : Nat) (cs : List Char) : Prop :=
  ∀ opened rest, deepest .outside opened (cs ++ rest) =
    max (opened + n) (deepest .outside opened rest)

namespace Nests

variable {n m : Nat} {cs ds : List Char}

theorem deepest_eq (h : Nests n cs) : deepest .outside 0 cs = n := by
  have := h 0 []
  rwa [List.append_nil, deepest, Nat.zero_add, Nat.max_zero] at this

theorem unique (h : Nests n cs) (h' : Nests m cs) : n = m :=
  h.deepest_eq.symm.trans h'.deepest_eq

/-- Of two texts side by side the deeper one counts. -/
theorem append (h : Nests n cs) (h' : Nests m ds) : Nests (max n m) (cs ++ ds) := by
  intro opened rest
  rw [List.append_assoc, h, h', ← Nat.max_assoc, Nat.add_max_add_left]

/-- Brackets around a text are open all the while. -/
theorem enclosed (h : Nests n cs) (opener closer : Char) (hopener : opener ∈ ['[', '\x7b'])
    (hcloser : closer ∈ [']', '\x7d']) : Nests (n + 1) (opener :: (cs ++ [closer])) := by
  have hopen : ∀ opened, Place.outside.next opener = .outside ∧
      Place.outside.count opened opener = opened + 1 := by
    simp only [List.mem_cons, List.not_mem_nil, or_false] at hopener
    rcases hopener with rfl | rfl <;> exact fun _ => ⟨rfl, rfl⟩
  have hclose : ∀ opened, Place.outside.next closer = .outside ∧
      Place.outside.count (opened + 1) closer = opened := by
    simp only [List.mem_cons, List.not_mem_nil, or_false] at hcloser
    rcases hcloser with rfl | rfl <;> exact fun _ => ⟨rfl, rfl⟩
  intro opened rest
  have hinner := h (opened + 1) (closer :: rest)
  rw [deepest, (hclose opened).1, (hclose opened).2] at hinner
  rw [List.cons_append, List.append_assoc, List.singleton_append, deepest, (hopen opened).1,
    (hopen opened).2, hinner]
  have := le_deepest .outside opened rest
  omega

end Nests

/-- Neither a bracket nor a quote. -/
def Plain (c : Char) : Prop :=
  c ∉ ['"', '[', ']', '\x7b', '\x7d']

instance : DecidablePred Plain := fun c =>
  inferInstanceAs (Decidable (c ∉ ['"', '[', ']', '\x7b', '\x7d']))

theorem nests_of_plain {cs : List Char} (h : ∀ c ∈ cs, Plain c) : Nests 0 cs := by
  intro opened rest
  rw [Nat.add_zero, Nat.max_eq_right (le_deepest _ _ _)]
  induction cs with
  | nil => rfl
  | cons c cs ih =>
    obtain ⟨hc, hcs⟩ := List.forall_mem_cons.1 h
    have hplain : c ≠ '"' ∧ c ≠ '[' ∧ c ≠ ']' ∧ c ≠ '\x7b' ∧ c ≠ '\x7d' := by
      simpa [Plain] using hc
    have hnext : Place.outside.next c = .outside := if_neg hplain.1
    have hcount : ∀ opened, Place.outside.count opened c = opened := by simp [Place.count, hplain]
    rw [List.cons_append, deepest_cons hnext hcount, ih hcs]

theorem Quoted.deepest_eq {cs : List Char} (h : Quoted cs) (opened : Nat) (rest : List Char) :
    deepest .inside opened (cs ++ rest) = deepest .outside opened rest := by
  induction h with
  | close => exact deepest_cons rfl (fun _ => rfl) opened rest
  | backslash _ _ ih =>
    exact (deepest_cons rfl (fun _ => rfl) opened _).trans
      ((deepest_cons rfl (fun _ => rfl) opened _).trans ih)
  | character hquote hbackslash _ ih =>
    refine (deepest_cons ?_ (fun _ => rfl) opened _).trans ih
    rw [Place.next, if_neg hquote, if_neg hbackslash]

/-- **Brackets in strings do not count.** -/
theorem Quoted.nests {cs : List Char} (h : Quoted cs) : Nests 0 ('"' :: cs) := by
  intro opened rest
  have hnext : Place.outside.next '"' = .inside := rfl
  rw [List.cons_append, deepest_cons hnext (fun _ => rfl), h.deepest_eq, Nat.add_zero,
    Nat.max_eq_right (le_deepest _ _ _)]

/-! ## Values close what they open -/

theorem Spaces.nests {cs : List Char} (h : Spaces cs) : Nests 0 cs :=
  nests_of_plain fun c hc => by
    simp only [Plain, List.mem_cons, List.not_mem_nil, or_false, not_or]
    refine ⟨?_, ?_, ?_, ?_, ?_⟩ <;> exact ne_of_isSpace (h c hc) (by decide)

theorem plain_of_isDigit {c : Char} (h : c.isDigit = true) : Plain c := by
  simp only [Plain, List.mem_cons, List.not_mem_nil, or_false, not_or]
  refine ⟨?_, ?_, ?_, ?_, ?_⟩ <;> exact ne_of_isDigit h (by decide)

theorem plain_of_mem {c : Char} (h : c ∈ ['-', '+', '.', 'e', 'E']) : Plain c := by
  simp only [List.mem_cons, List.not_mem_nil, or_false] at h
  rcases h with rfl | rfl | rfl | rfl | rfl <;> decide

theorem NumberText.nests {cs : List Char} {numeral : Numeral} (h : NumberText cs numeral) :
    Nests 0 cs := by
  refine nests_of_plain fun c hc => ?_
  obtain ⟨negative, his, hfs, hes⟩ := h
  rcases List.mem_append.1 hc with hsign | hc
  · cases negative with
    | true => exact plain_of_mem (List.mem_singleton.1 hsign ▸ List.mem_cons_self)
    | false => cases hsign
  rcases List.mem_append.1 hc with hc | hc
  · exact plain_of_isDigit (his.isDigits.digit c hc)
  rcases List.mem_append.1 hc with hc | hc
  · cases hfs with
    | none => cases hc
    | point hds =>
      rcases List.mem_cons.1 hc with rfl | hc
      · exact plain_of_mem (by simp)
      · exact plain_of_isDigit (hds.digit c hc)
  · cases hes with
    | none => cases hc
    | plain he hds =>
      rcases List.mem_cons.1 hc with rfl | hc
      · exact plain_of_mem (List.mem_of_mem_drop (i := 3) he)
      · exact plain_of_isDigit (hds.digit c hc)
    | signed he hsign hds =>
      rcases List.mem_cons.1 hc with rfl | hc
      · exact plain_of_mem (List.mem_of_mem_drop (i := 3) he)
      rcases List.mem_cons.1 hc with rfl | hc
      · simp only [List.mem_cons, List.not_mem_nil, or_false] at hsign
        rcases hsign with rfl | rfl <;> exact plain_of_mem (by simp)
      · exact plain_of_isDigit (hds.digit c hc)

/-- **Separated parts nest as deep as the deepest of them.** -/
theorem exists_nests_of_separated {parts : List (List Char)} {ts : List Char}
    (h : Separated isComma parts ts) (hparts : ∀ part ∈ parts, ∃ n, Nests n part) :
    ∃ n, Nests n ts ∧ ∀ part ∈ parts, ∀ m, Nests m part → m ≤ n := by
  induction h with
  | nil =>
    exact ⟨0, nests_of_plain fun c hc => absurd hc List.not_mem_nil,
      fun part hpart => absurd hpart List.not_mem_nil⟩
  | single part =>
    obtain ⟨n, hn⟩ := hparts part List.mem_cons_self
    refine ⟨n, hn, fun part' hpart m hm => ?_⟩
    obtain rfl := List.mem_singleton.1 hpart
    exact Nat.le_of_eq (hm.unique hn)
  | @cons part parts ts t ht _ _ ih =>
    obtain ⟨⟨n, hn⟩, hparts⟩ := List.forall_mem_cons.1 hparts
    obtain ⟨k, hk, hle⟩ := ih hparts
    obtain rfl : t = ',' := by simpa [isComma] using ht
    have hcomma : Nests 0 [','] := nests_of_plain (List.forall_mem_singleton.2 (by decide))
    have hwhole := hn.append (hcomma.append hk)
    rw [Nat.zero_max, List.singleton_append] at hwhole
    refine ⟨max n k, hwhole, List.forall_mem_cons.2 ⟨fun m hm => ?_, fun part' hpart m hm => ?_⟩⟩
    · exact hm.unique hn ▸ Nat.le_max_left n k
    · exact Nat.le_trans (hle part' hpart m hm) (Nat.le_max_right n k)

theorem Piece.Spaced.nests {p : Piece} (h : p.Spaced) {n : Nat} (hn : Nests n p.text) :
    Nests n p.whole := by
  have hwhole := h.before.nests.append (hn.append h.after.nests)
  rwa [Nat.zero_max, Nat.max_zero] at hwhole

theorem Member.Keyed.nests {m : Member} (h : m.Keyed) {n : Nat} (hn : Nests n m.piece.text) :
    Nests n m.whole := by
  have hcolon : Nests 0 [':'] := nests_of_plain (List.forall_mem_singleton.2 (by decide))
  have hvalue := h.gap.nests.append (hcolon.append (h.piece.nests hn))
  have hwhole := h.before.nests.append (h.key.quoted.nests.append hvalue)
  rw [Member.whole]
  simpa only [Nat.zero_max, List.singleton_append, List.cons_append, List.nil_append] using hwhole

/-- **A value closes what it opens,** and its depth is the count of brackets. -/
theorem Written.exists_nests {depth : Nat} {cs : List Char} {v : Value} (h : Written depth cs v) :
    ∃ n, Nests n cs ∧ Written n cs v := by
  induction h with
  | null => exact ⟨0, nests_of_plain (by simp [Plain]), .null⟩
  | true => exact ⟨0, nests_of_plain (by simp [Plain]), .true⟩
  | false => exact ⟨0, nests_of_plain (by simp [Plain]), .false⟩
  | number hnumber hv => exact ⟨0, hnumber.nests, .number hnumber hv⟩
  | string htext => exact ⟨0, htext.quoted.nests, .string htext⟩
  | array hblanks hspaced _ hsep ih =>
    obtain ⟨n, hn, hle⟩ := exists_nests_of_separated hsep (List.forall_mem_map.2 fun p hp => by
      obtain ⟨m, hm, -⟩ := ih p hp
      exact ⟨m, (hspaced p hp).nests hm⟩)
    have hinner := (hblanks.nests.append hn).enclosed '[' ']' (by simp) (by simp)
    rw [Nat.zero_max, List.append_assoc] at hinner
    refine ⟨n + 1, hinner, .array hblanks hspaced (fun p hp => ?_) hsep⟩
    obtain ⟨m, hm, hwritten⟩ := ih p hp
    exact hwritten.mono (hle p.whole (List.mem_map_of_mem hp) m ((hspaced p hp).nests hm))
  | object hblanks hkeyed _ hsep ih =>
    obtain ⟨n, hn, hle⟩ := exists_nests_of_separated hsep (List.forall_mem_map.2 fun m hm => by
      obtain ⟨k, hk, -⟩ := ih m hm
      exact ⟨k, (hkeyed m hm).nests hk⟩)
    have hinner := (hblanks.nests.append hn).enclosed '\x7b' '\x7d' (by simp) (by simp)
    rw [Nat.zero_max, List.append_assoc] at hinner
    refine ⟨n + 1, hinner, .object hblanks hkeyed (fun m hm => ?_) hsep⟩
    obtain ⟨k, hk, hwritten⟩ := ih m hm
    exact hwritten.mono (hle m.whole (List.mem_map_of_mem hm) k ((hkeyed m hm).nests hk))

/-- **A text that is read and nests no deeper than `depth` is a value of that depth,** with white
space around it. -/
theorem written_of_read {text : String} {v : Value} {depth : Nat} (h : read text = .ok v)
    (hdepth : nesting text ≤ depth) :
    ∃ p : Piece, p.Spaced ∧ p.value = v ∧ p.whole = text.toList ∧ Written depth p.text v := by
  obtain ⟨p, hspaced, hvalue, hwhole, hwritten⟩ := read_eq_ok_iff.1 h
  obtain ⟨n, hn, hwritten⟩ := hwritten.exists_nests
  have hdeepest := (hspaced.nests hn).deepest_eq
  rw [hwhole] at hdeepest
  rw [nesting, hdeepest] at hdepth
  exact ⟨p, hspaced, hvalue, hwhole, hwritten.mono hdepth⟩

end FilterQuery.Json
