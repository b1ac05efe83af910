import ChessEval.Proofs.Text.Cutting

/-! Which texts are cut into given words or pieces, and which are read as a given number. -/
namespace ChessEval.Text

variable {sep : Char → Bool} {c : Char} {cs w : List Char} {l ws : List (List Char)} {n acc : Nat}

section Cutting

theorem split_ne_nil (sep : Char → Bool) (cs : List Char) : split sep cs ≠ [] := by
  cases cs with
  | nil => simp [split]
  | cons c cs =>
    rw [split]
    split
    · simp
    · split <;> simp

theorem sep_eq_false_of_mem_split (hw : w ∈ split sep cs) (hc : c ∈ w) : sep c = false := by
  induction cs generalizing w with
  | nil =>
    obtain rfl := List.mem_singleton.mp hw
    cases hc
  | cons x cs ih =>
    rw [split] at hw
    split at hw
    · rcases List.mem_cons.mp hw with rfl | hw
      · cases hc
      · exact ih hw hc
    · next hx =>
      split at hw
      · next v vs hs =>
        rw [hs] at ih
        rcases List.mem_cons.mp hw with rfl | hw
        · rcases List.mem_cons.mp hc with rfl | hc
          · simpa using hx
          · exact ih List.mem_cons_self hc
        · exact ih (List.mem_cons_of_mem v hw) hc
      · next hs => exact (split_ne_nil sep cs hs).elim

theorem intercalate_split (c : Char) (cs : List Char) :
    List.intercalate [c] (split (· == c) cs) = cs := by
  induction cs with
  | nil => rfl
  | cons x cs ih =>
    obtain ⟨w, ws, hs⟩ := List.exists_cons_of_ne_nil (split_ne_nil (· == c) cs)
    rw [hs] at ih
    rw [split, hs]
    by_cases hx : x = c
    · subst hx
      rw [if_pos (beq_self_eq_true x), List.intercalate_cons_cons, ih]
      rfl
    · rw [if_neg (by simpa using hx)]
      cases ws with
      | nil =>
        rw [List.intercalate_singleton] at ih ⊢
        rw [ih]
      | cons v vs =>
        rw [List.intercalate_cons_cons] at ih ⊢
        rw [← ih]
        rfl

/-- The pieces of a text are those without separators that make it up. -/
theorem split_eq_iff : split (· == c) cs = l ↔
    l ≠ [] ∧ (∀ w ∈ l, c ∉ w) ∧ List.intercalate [c] l = cs := by
  constructor
  · rintro rfl
    refine ⟨split_ne_nil _ cs, fun w hw hc => ?_, intercalate_split c cs⟩
    simpa using sep_eq_false_of_mem_split hw hc
  · rintro ⟨hne, hfree, rfl⟩
    refine split_intercalate (beq_self_eq_true c) hne fun w hw x hx => ?_
    simp only [beq_eq_false_iff_ne, ne_eq]
    rintro rfl
    exact hfree w hw hx

end Cutting

section Words

/-- A text is made of words, with blanks between them and perhaps around. -/
inductive Spaced : List Char → List (List Char) → Prop
  | nil : Spaced [] []
  | blank {c : Char} {cs : List Char} {ws : List (List Char)} : isBlank c = true → Spaced cs ws →
    Spaced (c :: cs) ws
  | last {w : List Char} : IsWord w → Spaced w [w]
  | word {w : List Char} {c : Char} {cs : List Char} {ws : List (List Char)} : IsWord w →
    isBlank c = true → Spaced cs ws → Spaced (w ++ c :: cs) (w :: ws)

theorem Spaced.words_eq (h : Spaced cs ws) : words cs = ws := by
  induction h with
  | nil => rfl
  | @blank c cs ws hc _ ih =>
    have hs : split isBlank (c :: cs) = [] :: split isBlank cs := by rw [split, if_pos hc]
    rw [words, hs, List.filter_cons_of_neg (by simp), ← words, ih]
  | @last w hw =>
    rw [words, split_eq_singleton hw.2, List.filter_cons_of_pos (by simpa using hw.1),
      List.filter_nil]
  | @word w c cs ws hw hc _ ih =>
    rw [words, split_append hw.2 hc, List.filter_cons_of_pos (by simpa using hw.1), ← words, ih]

theorem exists_spaced (hw : ∀ x ∈ w, isBlank x = false) : ∃ ws, Spaced (w ++ cs) ws := by
  -- `w` is the part of a word that is already read
  induction cs generalizing w with
  | nil =>
    rw [List.append_nil]
    by_cases hne : w = []
    · exact ⟨[], hne ▸ .nil⟩
    · exact ⟨[w], .last ⟨hne, hw⟩⟩
  | cons c cs ih =>
    by_cases hc : isBlank c = true
    · obtain ⟨ws, hs⟩ := ih (w := []) (by simp)
      by_cases hne : w = []
      · exact ⟨ws, hne ▸ .blank hc hs⟩
      · exact ⟨w :: ws, .word ⟨hne, hw⟩ hc hs⟩
    · have hwc : ∀ x ∈ w ++ [c], isBlank x = false := by
        intro x hx
        rcases List.mem_append.mp hx with hx | hx
        · exact hw x hx
        · simpa [List.mem_singleton.mp hx] using hc
      obtain ⟨ws, hs⟩ := ih hwc
      exact ⟨ws, by rwa [List.append_assoc] at hs⟩

/-- The words of a text are those that it is made of. -/
theorem words_eq_iff : words cs = ws ↔ Spaced cs ws := by
  constructor
  · rintro rfl
    obtain ⟨ws, hs⟩ : ∃ ws, Spaced cs ws := exists_spaced (w := []) (by simp)
    rwa [hs.words_eq]
  · exact Spaced.words_eq

end Words

section Numbers

/-- A number in decimal, perhaps after a plus sign, that fits into 32 bits. -/
def Numeral (w : List Char) (n : Nat) : Prop :=
  ∃ ds, (w = ds ∨ w = '+' :: ds) ∧ ds ≠ [] ∧ (∀ d ∈ ds, d.isDigit = true) ∧
    n = Nat.ofDigitChars 10 ds 0 ∧ n < 4294967296

/-- A number told by a word that may be missing, with a default for what is no number. -/
def Told (default : Nat) (w : Option (List Char)) (n : Nat) : Prop :=
  (∃ v, w = some v ∧ Numeral v n) ∨ ((∀ v m, w = some v → ¬ Numeral v m) ∧ n = default)

theorem isDigit_iff : c.isDigit = true ↔ '0' ≤ c ∧ c ≤ '9' := by
  rw [Char.isDigit, Bool.and_eq_true, decide_eq_true_eq, decide_eq_true_eq]
  rfl

theorem digit?_eq (c : Char) :
    digit? c = if c.isDigit = true then some (c.toNat - '0'.toNat) else none := by
  simp only [digit?, isDigit_iff]

theorem digitsValue?_eq_some_iff : digitsValue? cs acc = some n ↔
    (∀ c ∈ cs, c.isDigit = true) ∧ n = Nat.ofDigitChars 10 cs acc := by
  constructor
  · intro h
    have hdigits : ∀ c ∈ cs, c.isDigit = true := by
      induction cs generalizing acc with
      | nil => simp
      | cons c cs ih =>
        rw [digitsValue?, digit?_eq] at h
        split at h
        · next hc => exact List.forall_mem_cons.mpr ⟨hc, ih h⟩
        · cases h
    rw [digitsValue?_eq hdigits] at h
    exact ⟨hdigits, (Option.some.inj h).symm⟩
  · rintro ⟨hdigits, rfl⟩
    exact digitsValue?_eq hdigits acc

theorem nat?_eq_some_iff : nat? w = some n ↔ ∃ ds, (w = ds ∨ w = '+' :: ds) ∧ ds ≠ [] ∧
    (∀ d ∈ ds, d.isDigit = true) ∧ n = Nat.ofDigitChars 10 ds 0 := by
  have hplus : ¬ '+'.isDigit = true := by decide
  unfold nat?
  split
  · simp
  · next c cs =>
    rw [digitsValue?_eq_some_iff]
    constructor
    · rintro ⟨hd, hn⟩
      exact ⟨c :: cs, Or.inr rfl, List.cons_ne_nil c cs, hd, hn⟩
    · rintro ⟨ds, rfl | hds, -, hd, hn⟩
      · exact (hplus (hd '+' List.mem_cons_self)).elim
      · obtain rfl := (List.cons.inj hds).2
        exact ⟨hd, hn⟩
  · next c cs hne =>
    rw [digitsValue?_eq_some_iff]
    constructor
    · rintro ⟨hd, hn⟩
      exact ⟨c :: cs, Or.inl rfl, List.cons_ne_nil c cs, hd, hn⟩
    · rintro ⟨ds, rfl | hds, hnil, hd, hn⟩
      · exact ⟨hd, hn⟩
      · -- a plus sign alone is no number
        obtain ⟨rfl, rfl⟩ := List.cons.inj hds
        obtain ⟨d, ds, rfl⟩ := List.exists_cons_of_ne_nil hnil
        exact (hne d ds rfl rfl).elim

theorem counter?_eq_some_iff {x : UInt32} : counter? w = some x ↔ Numeral w x.toNat := by
  rw [counter?, Option.bind_eq_some_iff]
  constructor
  · rintro ⟨n, hn, hx⟩
    obtain ⟨ds, hw, hne, hd, rfl⟩ := nat?_eq_some_iff.mp hn
    split at hx
    · next hlt =>
      obtain rfl := Option.some.inj hx
      rw [UInt32.toNat_ofNat', Nat.mod_eq_of_lt hlt]
      exact ⟨ds, hw, hne, hd, rfl, hlt⟩
    · cases hx
  · rintro ⟨ds, hw, hne, hd, hn, hlt⟩
    refine ⟨x.toNat, nat?_eq_some_iff.mpr ⟨ds, hw, hne, hd, hn⟩, ?_⟩
    rw [if_pos hlt, UInt32.ofNat_toNat]

theorem Numeral.exists_eq_toNat (h : Numeral w n) : ∃ x : UInt32, n = x.toNat := by
  obtain ⟨-, -, -, -, -, hlt⟩ := h
  exact ⟨UInt32.ofNat n, by rw [UInt32.toNat_ofNat', Nat.mod_eq_of_lt hlt]⟩

theorem counter?_eq_none_iff : counter? w = none ↔ ∀ n, ¬ Numeral w n := by
  rw [Option.eq_none_iff_forall_ne_some]
  constructor
  · intro h n hn
    obtain ⟨x, rfl⟩ := hn.exists_eq_toNat
    exact h x (counter?_eq_some_iff.mpr hn)
  · intro h x hx
    exact h x.toNat (counter?_eq_some_iff.mp hx)

end Numbers

end ChessEval.Text
