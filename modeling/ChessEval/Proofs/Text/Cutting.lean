import Mathlib.Data.List.Basic
import ChessEval.Text.Blank
import ChessEval.Text.Decimal

/-! Text that was put together from words or from a number is cut and read as these again. -/
namespace ChessEval.Text

variable {sep : Char → Bool} {c : Char} {w cs : List Char} {l : List (List Char)}

theorem split_eq_singleton (h : ∀ x ∈ w, sep x = false) : split sep w = [w] := by
  induction w with
  | nil => rfl
  | cons x w ih =>
    obtain ⟨hx, hw⟩ := List.forall_mem_cons.mp h
    simp [split, hx, ih hw]

theorem split_append (h : ∀ x ∈ w, sep x = false) (hc : sep c = true) :
    split sep (w ++ c :: cs) = w :: split sep cs := by
  induction w with
  | nil => simp [split, hc]
  | cons x w ih =>
    obtain ⟨hx, hw⟩ := List.forall_mem_cons.mp h
    simp [split, hx, ih hw]

theorem split_intercalate (hc : sep c = true) (hl : l ≠ []) (h : ∀ w ∈ l, ∀ x ∈ w, sep x = false) :
    split sep (List.intercalate [c] l) = l := by
  induction l with
  | nil => exact (hl rfl).elim
  | cons w l ih =>
    obtain ⟨hw, hrest⟩ := List.forall_mem_cons.mp h
    cases l with
    | nil => rw [List.intercalate_singleton, split_eq_singleton hw]
    | cons v l =>
      rw [List.intercalate_cons_cons, List.append_assoc, List.singleton_append,
        split_append hw hc, ih (List.cons_ne_nil v l) hrest]

theorem mem_of_mem_intercalate {x : Char} (h : x ∈ List.intercalate [c] l) :
    x = c ∨ ∃ w ∈ l, x ∈ w := by
  induction l with
  | nil => cases h
  | cons w l ih =>
    cases l with
    | nil =>
      rw [List.intercalate_singleton] at h
      exact Or.inr ⟨w, List.mem_cons_self, h⟩
    | cons v l =>
      rw [List.intercalate_cons_cons, List.mem_append, List.mem_append, List.mem_singleton] at h
      rcases h with (h | h) | h
      · exact Or.inr ⟨w, List.mem_cons_self, h⟩
      · exact Or.inl h
      · obtain hc | ⟨u, hu, hx⟩ := ih h
        · exact Or.inl hc
        · exact Or.inr ⟨u, List.mem_cons_of_mem w hu, hx⟩

/-- What a word of a text is: not empty, and without blanks. -/
def IsWord (w : List Char) : Prop := w ≠ [] ∧ ∀ x ∈ w, isBlank x = false

theorem isWord_iff : IsWord w ↔ (!w.isEmpty && w.all (!isBlank ·)) = true := by
  simp [IsWord]

instance (w : List Char) : Decidable (IsWord w) := decidable_of_iff _ isWord_iff.symm

theorem words_intercalate (hl : l ≠ []) (h : ∀ w ∈ l, IsWord w) :
    words (List.intercalate [' '] l) = l := by
  rw [words, split_intercalate (by decide) hl fun w hw => (h w hw).2]
  refine List.filter_eq_self.mpr fun w hw => ?_
  simpa using (h w hw).1

theorem dropWhile_isBlank_eq_self (h : ∀ x ∈ cs.head?, isBlank x = false) :
    cs.dropWhile isBlank = cs := by
  cases cs with
  | nil => rfl
  | cons x cs => exact List.dropWhile_cons_of_neg (Bool.eq_false_iff.mp (h x rfl))

theorem trim_eq_self (hfirst : ∀ x ∈ cs.head?, isBlank x = false)
    (hlast : ∀ x ∈ cs.getLast?, isBlank x = false) : trim cs = cs := by
  rw [← List.head?_reverse] at hlast
  rw [trim, dropWhile_isBlank_eq_self hfirst, dropWhile_isBlank_eq_self hlast,
    List.reverse_reverse]

theorem trim_of_not_blank (h : ∀ x ∈ cs, isBlank x = false) : trim cs = cs :=
  trim_eq_self (fun x hx => h x (List.mem_of_mem_head? hx))
    fun x hx => h x (List.mem_of_mem_getLast? hx)

theorem intercalate_ne_nil (hl : l ≠ []) (h : ∀ w ∈ l, IsWord w) :
    List.intercalate [c] l ≠ [] := by
  cases l with
  | nil => exact (hl rfl).elim
  | cons w l =>
    have hw := (h w List.mem_cons_self).1
    cases l with
    | nil => rwa [List.intercalate_singleton]
    | cons v l =>
      rw [List.intercalate_cons_cons, List.append_assoc]
      exact List.append_ne_nil_of_left_ne_nil hw _

theorem not_blank_of_mem_head? {x : Char} (h : ∀ w ∈ l, IsWord w)
    (hx : x ∈ (List.intercalate [c] l).head?) : isBlank x = false := by
  cases l with
  | nil => cases hx
  | cons w l =>
    obtain ⟨hne, hw⟩ := h w List.mem_cons_self
    obtain ⟨y, ys, rfl⟩ := List.exists_cons_of_ne_nil hne
    have hy : x = y := by
      cases l with
      | nil => simpa [eq_comm] using hx
      | cons v l => simpa [List.intercalate_cons_cons, eq_comm] using hx
    exact hw x (hy ▸ List.mem_cons_self)

theorem not_blank_of_mem_getLast? {x : Char} (h : ∀ w ∈ l, IsWord w)
    (hx : x ∈ (List.intercalate [c] l).getLast?) : isBlank x = false := by
  induction l with
  | nil => cases hx
  | cons w l ih =>
    obtain ⟨hw, hl⟩ := List.forall_mem_cons.mp h
    cases l with
    | nil =>
      rw [List.intercalate_singleton] at hx
      exact hw.2 x (List.mem_of_mem_getLast? hx)
    | cons v l =>
      have hne : List.intercalate [c] (v :: l) ≠ [] :=
        intercalate_ne_nil (List.cons_ne_nil v l) hl
      rw [List.intercalate_cons_cons, List.getLast?_append_of_ne_nil _ hne] at hx
      exact ih hl hx

/-- Words put together have no blanks at their ends. -/
theorem trim_intercalate (h : ∀ w ∈ l, IsWord w) :
    trim (List.intercalate [c] l) = List.intercalate [c] l :=
  trim_eq_self (fun _ => not_blank_of_mem_head? h) fun _ => not_blank_of_mem_getLast? h

/-- The case of a letter has nothing to do with blanks. -/
theorem isBlank_toLower (c : Char) : isBlank c.toLower = isBlank c := by
  by_cases h : c.val ≥ 'A'.val ∧ c.val ≤ 'Z'.val
  · have hlow : 65 ≤ c.toNat := h.1
    have hhigh : c.toNat ≤ 90 := h.2
    have hval : c.toLower.val = c.val + 32 := congrArg Char.val (dif_pos h)
    have hsum : c.toLower.toNat = c.toNat + 32 := by
      rw [Char.toNat, hval, UInt32.toNat_add]
      exact Nat.mod_eq_of_lt (by change c.toNat + 32 < _; omega)
    simp only [isBlank, hsum]
    grind
  · have hsame : c.toLower = c := dif_neg h
    rw [hsame]

/-- Characters of seven bits take one byte each. -/
theorem utf8ByteSize_ofList (h : ∀ x ∈ cs, x.toNat < 128) :
    (String.ofList cs).utf8ByteSize = cs.length := by
  induction cs with
  | nil => rfl
  | cons x cs ih =>
    obtain ⟨hx, hcs⟩ := List.forall_mem_cons.mp h
    have hsize : x.utf8Size = 1 := by
      rw [Char.utf8Size_eq_one_iff, UInt32.le_iff_toNat_le]
      exact Nat.le_of_lt_succ hx
    rw [String.ofList_cons, String.utf8ByteSize_append, String.utf8ByteSize_singleton, hsize,
      ih hcs, List.length_cons, Nat.add_comm]

theorem digit?_of_isDigit (hc : c.isDigit = true) : digit? c = some (c.toNat - '0'.toNat) := by
  rw [Char.isDigit, Bool.and_eq_true, decide_eq_true_eq, decide_eq_true_eq] at hc
  rw [digit?, if_pos ⟨hc.1, hc.2⟩]

theorem digit?_digitChar : ∀ n < 10, digit? n.digitChar = some n := by
  decide

theorem isBlank_of_isDigit (hc : c.isDigit = true) : isBlank c = false := by
  rw [Char.isDigit, Bool.and_eq_true, decide_eq_true_eq, decide_eq_true_eq] at hc
  have hlo : 48 ≤ c.toNat := hc.1
  have hhi : c.toNat ≤ 57 := hc.2
  simp only [isBlank]
  grind

theorem digitsValue?_eq (h : ∀ c ∈ cs, c.isDigit = true) (acc : Nat) :
    digitsValue? cs acc = some (Nat.ofDigitChars 10 cs acc) := by
  induction cs generalizing acc with
  | nil => rfl
  | cons c cs ih =>
    obtain ⟨hc, hcs⟩ := List.forall_mem_cons.mp h
    rw [digitsValue?, digit?_of_isDigit hc, Option.bind_some, ih hcs, Nat.ofDigitChars_cons]

theorem isDigit_of_mem_natText {n : Nat} (h : c ∈ natText n) : c.isDigit = true :=
  Nat.isDigit_of_mem_toDigits (by decide) (by decide) h

theorem nat?_natText (n : Nat) : nat? (natText n) = some n := by
  have hvalue : digitsValue? (natText n) 0 = some n := by
    rw [digitsValue?_eq fun c => isDigit_of_mem_natText, natText, Nat.ofDigitChars_ten_toDigits]
  have hne : natText n ≠ [] := Nat.toDigits_ne_nil
  obtain ⟨c, cs, hcs⟩ := List.exists_cons_of_ne_nil hne
  have hc : c.isDigit = true := isDigit_of_mem_natText (by rw [hcs]; exact List.mem_cons_self)
  rw [hcs] at hvalue ⊢
  unfold nat?
  split
  · contradiction
  · next heq =>
    obtain ⟨rfl, -⟩ := List.cons.inj heq
    exact absurd hc (by decide)
  · next heq =>
    obtain ⟨rfl, rfl⟩ := List.cons.inj heq
    exact hvalue

theorem counter?_natText (n : UInt32) : counter? (natText n.toNat) = some n := by
  rw [counter?, nat?_natText, Option.bind_some, if_pos n.toNat_lt, UInt32.ofNat_toNat]

theorem isWord_natText (n : Nat) : IsWord (natText n) :=
  ⟨Nat.toDigits_ne_nil, fun _ hx => isBlank_of_isDigit (isDigit_of_mem_natText hx)⟩

end ChessEval.Text
