import FilterQuery.Json.Text
import FilterQuery.Proofs.Consumer.Success
import FilterQuery.Proofs.Token.Lexeme

/-!
# Proofs/Json/Text — one grammar of strings for both readers

    string := { character | '\' escape } '"'
    escape := letter | 'u' quad | 'u' quad '\' 'u' quad          -- the last for surrogates

`StringText cs name` says that the characters `cs` are a string, without its opening quote, that
stands for `name`.  That is what the reader of JSON takes (`textTail_yields`, `StringText.apply`).
The lexer is content with less (`Quoted`), and sees the end of a string where the reader of JSON
does (`StringText.quoted`, `Quoted.stringTailLength?_eq`).
-/

namespace FilterQuery.Json

open FilterQuery.Rule (Yields apply_bind_of_ok apply_bind_eq_ok_iff apply_pure_eq_ok_iff
  apply_throw_ne_ok apply_peek apply_rest apply_skip)

/-! ## The grammar -/

/-- The characters of an escape after its backslash, and the character it stands for. -/
inductive EscapeText : List Char → Char → Prop
  | letter {c d : Char} : letterEscapes.lookup c = some d → EscapeText [c] d
  | number {quad : List Char} {n : Nat} : hexQuad? quad = some n → isLowSurrogate n = false →
      isHighSurrogate n = false → EscapeText ('u' :: quad) (Char.ofNat n)
  | pair {quad quad' : List Char} {high low : Nat} : hexQuad? quad = some high →
      isLowSurrogate high = false → isHighSurrogate high = true → hexQuad? quad' = some low →
      isLowSurrogate low = true →
      EscapeText ('u' :: (quad ++ '\\' :: 'u' :: quad')) (pairChar high low)

/-- The characters of a string after its opening quote, and those it stands for. -/
inductive StringText : List Char → List Char → Prop
  | close : StringText ['"'] []
  | escape {es cs name : List Char} {d : Char} : EscapeText es d → StringText cs name →
      StringText ('\\' :: (es ++ cs)) (d :: name)
  | character {c : Char} {cs name : List Char} : c ≠ '"' → c ≠ '\\' → ¬ c.toNat < 0x20 →
      StringText cs name → StringText (c :: cs) (c :: name)

/-- A rule that fails reads nothing. -/
theorem fail_ne_ok {α : Type} {cause : Cause} {ahead : Nat} {a : α} {s r : List Char} :
    (fail cause ahead : Rule α).apply s ≠ (.ok a, r) := by
  intro h
  rw [fail, apply_bind_of_ok (apply_rest s)] at h
  exact apply_throw_ne_ok h

/-! ## Escapes -/

/-- A code unit is written with four characters. -/
theorem exists_cons_of_hexQuad? {quad : List Char} {n : Nat} (h : hexQuad? quad = some n) :
    ∃ a b c d, quad = [a, b, c, d] := by
  match quad with
  | [a, b, c, d] => exact ⟨a, b, c, d, rfl⟩
  | [] | [_] | [_, _] | [_, _, _] | _ :: _ :: _ :: _ :: _ :: _ => cases h

/-- Four hexadecimal digits are taken where they stand. -/
theorem hexQuad_apply {quad : List Char} {n : Nat} (h : hexQuad? quad = some n) (rest : List Char) :
    hexQuad.apply (quad ++ rest) = (.ok n, rest) := by
  obtain ⟨a, b, c, d, rfl⟩ := exists_cons_of_hexQuad? h
  have hlength : ¬ Text.byteLength (a :: b :: c :: d :: rest) < 4 := by
    have := a.utf8Size_pos
    have := b.utf8Size_pos
    have := c.utf8Size_pos
    have := d.utf8Size_pos
    simp only [Text.byteLength_cons]
    omega
  have htake : (a :: b :: c :: d :: rest).take 4 = [a, b, c, d] := rfl
  change hexQuad.apply (a :: b :: c :: d :: rest) = _
  rw [hexQuad, apply_bind_of_ok (apply_rest _), if_neg hlength, htake, h]
  rfl

/-- The rule for code units takes four hexadecimal digits and nothing else. -/
theorem hexQuad_yields : hexQuad.Yields fun quad n => hexQuad? quad = some n := by
  intro s n r h
  have hread := h
  rw [hexQuad, apply_bind_of_ok (apply_rest s)] at h
  split at h
  · exact absurd h fail_ne_ok
  · split at h
    · exact absurd h fail_ne_ok
    · next m hm =>
      have hs : s = s.take 4 ++ s.drop 4 := (List.take_append_drop 4 s).symm
      rw [hs, hexQuad_apply hm] at hread
      cases hread
      exact ⟨s.take 4, hs, hm⟩

/-- The second half of a pair begins with just the character that is expected. -/
theorem expectInPair_yields (c : Char) : (expectInPair c).Yields fun ts _ => ts = [c] := by
  intro s u r h
  rw [expectInPair, apply_bind_of_ok (apply_peek s)] at h
  cases s with
  | nil => exact absurd h fail_ne_ok
  | cons d s =>
    rw [List.head?_cons] at h
    dsimp only at h
    split at h
    · next hd =>
      subst hd
      cases h
      exact ⟨[d], rfl, rfl⟩
    · exact absurd h fail_ne_ok

/-- An expected character of a pair is taken where it stands. -/
theorem expectInPair_apply (c : Char) (rest : List Char) :
    (expectInPair c).apply (c :: rest) = (.ok (), rest) := by
  rw [expectInPair, apply_bind_of_ok (apply_peek _), List.head?_cons]
  dsimp only
  rw [if_pos rfl]
  rfl

/-- A letter that stands for a character is taken as that character. -/
theorem escape_apply_letter {c d : Char} (h : letterEscapes.lookup c = some d) (s : List Char) :
    escape.apply (c :: s) = (.ok d, s) := by
  rw [escape, apply_bind_of_ok (apply_peek _), List.head?_cons]
  dsimp only
  rw [h]
  rfl

/-- After `u` an escape is a hexadecimal one. -/
theorem escape_apply_u (s : List Char) : escape.apply ('u' :: s) = hexEscape.apply s := rfl

/-- A hexadecimal escape is one code unit, or a pair of surrogates. -/
theorem hexEscape_yields : hexEscape.Yields fun ts d => EscapeText ('u' :: ts) d := by
  intro s d r h
  rw [hexEscape] at h
  obtain ⟨n, t, hn, hrest⟩ := apply_bind_eq_ok_iff.1 h
  obtain ⟨quad, rfl, hquad⟩ := hexQuad_yields _ _ _ hn
  split at hrest
  · exact absurd hrest fail_ne_ok
  · next hlow =>
    have hlow : isLowSurrogate n = false := by simpa using hlow
    split at hrest
    · next hhigh =>
      obtain ⟨⟨⟩, u, hbackslash, hmark⟩ := apply_bind_eq_ok_iff.1 hrest
      obtain ⟨⟨⟩, v, hu, hquads⟩ := apply_bind_eq_ok_iff.1 hmark
      obtain ⟨low, w, hread, hlast⟩ := apply_bind_eq_ok_iff.1 hquads
      obtain ⟨-, rfl, rfl⟩ := expectInPair_yields _ _ _ _ hbackslash
      obtain ⟨-, rfl, rfl⟩ := expectInPair_yields _ _ _ _ hu
      obtain ⟨quad', rfl, hquad'⟩ := hexQuad_yields _ _ _ hread
      split at hlast
      · next hsecond =>
        obtain ⟨rfl, rfl⟩ := apply_pure_eq_ok_iff.1 hlast
        exact ⟨_, by simp, .pair hquad hlow hhigh hquad' hsecond⟩
      · exact absurd hlast fail_ne_ok
    · next hhigh =>
      obtain ⟨rfl, rfl⟩ := apply_pure_eq_ok_iff.1 hrest
      exact ⟨quad, rfl, .number hquad hlow (by simpa using hhigh)⟩

/-- **The escape rule takes the escapes of the text** and nothing else. -/
theorem escape_yields : escape.Yields EscapeText := by
  intro s d r h
  have hread := h
  rw [escape, apply_bind_of_ok (apply_peek _)] at h
  cases s with
  | nil => exact absurd h fail_ne_ok
  | cons c s =>
    rw [List.head?_cons] at h
    dsimp only at h
    split at h
    · next d' hd =>
      rw [escape_apply_letter hd] at hread
      cases hread
      exact ⟨[c], rfl, .letter hd⟩
    · split at h
      · next hc =>
        subst hc
        obtain ⟨ts, rfl, hts⟩ := hexEscape_yields _ _ _ h
        exact ⟨'u' :: ts, rfl, hts⟩
      · exact absurd h fail_ne_ok

/-- Every escape of the text is taken where it stands. -/
theorem EscapeText.apply {es : List Char} {d : Char} (h : EscapeText es d) (rest : List Char) :
    escape.apply (es ++ rest) = (.ok d, rest) := by
  cases h with
  | letter hd => exact escape_apply_letter hd rest
  | number hquad hlow hhigh =>
    rw [List.cons_append, escape_apply_u, hexEscape, apply_bind_of_ok (hexQuad_apply hquad rest),
      if_neg (by simp [hlow]), if_neg (by simp [hhigh])]
    rfl
  | pair hquad hlow hhigh hquad' hsecond =>
    rw [List.cons_append, escape_apply_u, hexEscape, List.append_assoc,
      apply_bind_of_ok (hexQuad_apply hquad _), if_neg (by simp [hlow]), if_pos hhigh,
      List.cons_append, apply_bind_of_ok (expectInPair_apply _ _), List.cons_append,
      apply_bind_of_ok (expectInPair_apply _ _), apply_bind_of_ok (hexQuad_apply hquad' _),
      if_pos hsecond]
    rfl

/-! ## Reading strings in JSON -/

/-- An escape in a string adds the character it stands for. -/
theorem textTailFrom_escape {s t : List Char} {d : Char} (h : escape.apply s = (.ok d, t)) :
    textTailFrom ('\\' :: s) = ((textTailFrom t).1.map (d :: ·), (textTailFrom t).2) := by
  rw [textTailFrom, if_neg (by decide), if_pos rfl]
  split
  · next e he =>
    rw [h] at he
    cases he
  · next d' hd =>
    rw [h] at hd ⊢
    cases hd
    rfl

/-- Any other character in a string adds itself. -/
theorem textTailFrom_character {c : Char} (hquote : c ≠ '"') (hbackslash : c ≠ '\\')
    (hc : ¬ c.toNat < 0x20) (s : List Char) :
    textTailFrom (c :: s) = ((textTailFrom s).1.map (c :: ·), (textTailFrom s).2) := by
  rw [textTailFrom, if_neg hquote, if_neg hbackslash, if_neg hc]

/-- **What is read as a string is a string.** -/
theorem textTail_yields : textTail.Yields StringText := by
  intro s name r h
  change textTailFrom s = _ at h
  fun_induction textTailFrom s generalizing name r with
  | case1 => cases h
  | case2 s =>
    cases h
    exact ⟨['"'], rfl, .close⟩
  | case3 s => cases h
  | case4 s d hd more =>
    rename_i ih
    obtain ⟨es, hs, hes⟩ : ∃ es, s = es ++ (escape.apply s).2 ∧ EscapeText es d :=
      escape_yields s d _ (Prod.ext hd rfl)
    rcases hmore : more with ⟨e | cs, r'⟩
    · rw [hmore] at h
      cases h
    · rw [hmore] at h
      cases h
      obtain ⟨ts, ht, hts⟩ := ih _ _ hmore
      exact ⟨'\\' :: (es ++ ts), by rw [hs]; simp [ht], .escape hes hts⟩
  | case5 c s => cases h
  | case6 c s hquote hbackslash =>
    rename_i hc more ih
    rcases hmore : more with ⟨e | cs, r'⟩
    · rw [hmore] at h
      cases h
    · rw [hmore] at h
      cases h
      obtain ⟨ts, rfl, hts⟩ := ih _ _ hmore
      exact ⟨c :: ts, rfl, .character hquote hbackslash hc hts⟩

/-- **A string is read as what it stands for,** whatever follows. -/
theorem StringText.apply {cs name : List Char} (h : StringText cs name) (rest : List Char) :
    textTail.apply (cs ++ rest) = (.ok name, rest) := by
  change textTailFrom (cs ++ rest) = _
  induction h with
  | close => rw [List.singleton_append, textTailFrom, if_pos rfl]
  | escape hes _ ih =>
    rw [List.cons_append, List.append_assoc, textTailFrom_escape (hes.apply _), ih]
    rfl
  | character hquote hbackslash hc _ ih =>
    rw [List.cons_append, textTailFrom_character hquote hbackslash hc, ih]
    rfl

/-! ## String tokens -/

/-- The characters of a string as far as its end depends on them: a backslash takes the next
character with it, whatever it is but a line feed. -/
inductive Quoted : List Char → Prop
  | close : Quoted ['"']
  | backslash {c : Char} {cs : List Char} : c ≠ '\n' → Quoted cs → Quoted ('\\' :: c :: cs)
  | character {c : Char} {cs : List Char} : c ≠ '"' → c ≠ '\\' → Quoted cs → Quoted (c :: cs)

/-- Characters that are neither quote nor backslash may be put in front of a quoted text. -/
theorem Quoted.append {xs cs : List Char} (hxs : ∀ c ∈ xs, c ≠ '"' ∧ c ≠ '\\') (h : Quoted cs) :
    Quoted (xs ++ cs) := by
  induction xs with
  | nil => exact h
  | cons c xs ih =>
    obtain ⟨hc, hxs⟩ := List.forall_mem_cons.1 hxs
    exact .character hc.1 hc.2 (ih hxs)

/-- The lexer takes a quoted text to its end. -/
theorem Quoted.stringTailLength?_eq {cs : List Char} (h : Quoted cs) :
    Lexer.stringTailLength? cs = some cs.length := by
  induction h with
  | close => rfl
  | backslash hc _ ih =>
    rw [Lexer.stringTailLength?, if_neg hc, ih]
    rfl
  | character hquote hbackslash _ ih =>
    rw [Lexer.stringTailLength?_cons hquote hbackslash, ih]
    rfl

/-- No letter that stands for a character is the end of a line. -/
theorem ne_newline_of_lookup {c d : Char} (h : letterEscapes.lookup c = some d) : c ≠ '\n' := by
  rintro rfl
  cases h

/-- Hexadecimal digits are neither quotes nor backslashes. -/
theorem hexQuad?_digits {quad : List Char} {n : Nat} (h : hexQuad? quad = some n) :
    ∀ c ∈ quad, c ≠ '"' ∧ c ≠ '\\' := by
  have hdigit : ∀ c n, hexDigit? c = some n → c ≠ '"' ∧ c ≠ '\\' := by
    intro c n hc
    constructor <;> rintro rfl <;> exact absurd hc (by simp [hexDigit?])
  obtain ⟨a, b, c, d, rfl⟩ := exists_cons_of_hexQuad? h
  simp only [hexQuad?, Option.bind_eq_bind, Option.bind_eq_some_iff] at h
  obtain ⟨i, hi, j, hj, k, hk, l, hl, -⟩ := h
  simpa only [List.forall_mem_cons, List.not_mem_nil, false_implies, implies_true, and_true] using
    ⟨hdigit a i hi, hdigit b j hj, hdigit c k hk, hdigit d l hl⟩

/-- An escape may be put in front of a quoted text. -/
theorem EscapeText.quoted {es cs : List Char} {d : Char} (h : EscapeText es d) (hcs : Quoted cs) :
    Quoted ('\\' :: (es ++ cs)) := by
  cases h with
  | letter hd => exact .backslash (ne_newline_of_lookup hd) hcs
  | number hquad => exact .backslash (by decide) (hcs.append (hexQuad?_digits hquad))
  | pair hquad _ _ hquad' =>
    have hu : 'u' ≠ '\n' := by decide
    have hlow := Quoted.backslash hu (hcs.append (hexQuad?_digits hquad'))
    simpa using Quoted.backslash hu (hlow.append (hexQuad?_digits hquad))

/-- **A JSON string is a string of the query language**: the lexer finds the same closing quote. -/
theorem StringText.quoted {cs name : List Char} (h : StringText cs name) : Quoted cs := by
  induction h with
  | close => exact .close
  | escape hes _ ih => exact hes.quoted ih
  | character hquote hbackslash _ _ ih => exact .character hquote hbackslash ih

end FilterQuery.Json
