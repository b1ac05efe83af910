import ChessEval.Proofs.Board.Rules
import ChessEval.Proofs.Board.SquareSet

/-! Sliding attacks: the subtraction on a rising line finds the squares that a walk reaches. -/
namespace ChessEval

variable {d : Step} {s t u : Square} {blocked : Square → Prop}

namespace Square

theorem val_eq (s : Square) : s.val = 8 * s.rank.val + s.file.val := by
  simp only [rank, file]
  omega

@[simp] theorem rank_ofCoords (r f : Fin 8) : (ofCoords r f).rank = r := by
  apply Fin.ext
  simp only [rank, ofCoords]
  omega

@[simp] theorem file_ofCoords (r f : Fin 8) : (ofCoords r f).file = f := by
  apply Fin.ext
  simp only [file, ofCoords]
  omega

@[simp] theorem ofCoords_inj {r f r' f' : Fin 8} :
    ofCoords r f = ofCoords r' f' ↔ r = r' ∧ f = f' := by
  constructor
  · intro h
    exact ⟨by rw [← rank_ofCoords r f, h, rank_ofCoords], by rw [← file_ofCoords r f, h, file_ofCoords]⟩
  · rintro ⟨rfl, rfl⟩
    rfl

theorem eq_of_coords (hr : s.rank = t.rank) (hf : s.file = t.file) : s = t := by
  apply Fin.ext
  rw [val_eq, val_eq t, hr, hf]

theorem step?_eq_some_iff {dr df : Int} : s.step? dr df = some t ↔ s.Off (dr, df) t := by
  simp only [step?, at?, Off]
  constructor
  · intro h
    split at h
    · split at h
      · obtain rfl := Option.some.inj h
        rw [rank_ofCoords, file_ofCoords]
        simp only
        omega
      · cases h
    · cases h
  · rintro ⟨hr, hf⟩
    have := t.rank.isLt
    have := t.file.isLt
    rw [if_pos (by omega), dif_pos (by omega), Option.some.injEq]
    apply eq_of_coords <;> apply Fin.ext <;> simp only [rank_ofCoords, file_ofCoords] <;> omega

theorem Off.unique {u : Square} (ht : s.Off d t) (hu : s.Off d u) : t = u :=
  eq_of_coords (Fin.ext (by have := ht.1; have := hu.1; omega))
    (Fin.ext (by have := ht.2; have := hu.2; omega))

theorem val_eq_of_off (h : s.Off d t) : (t.val : Int) = s.val + (8 * d.1 + d.2) := by
  unfold Off at h
  have := val_eq s
  have := val_eq t
  omega

/-- The directions along lines of squares, of which the other four are the reverse. -/
inductive Upward : Step → Prop
  | diagonal : Upward (1, 1)
  | antidiagonal : Upward (1, -1)
  | file : Upward (1, 0)
  | rank : Upward (0, 1)

def reverse (d : Step) : Step := (-d.1, -d.2)

theorem off_reverse : s.Off (reverse d) t ↔ t.Off d s := by
  simp only [Off, reverse]
  omega

theorem Slides.append (h : Slides blocked d s u) (hu : ¬ blocked u) (ht : u.Off d t) :
    Slides blocked d s t := by
  induction h with
  | one hs => exact .more hs hu (.one ht)
  | more hs hv _ ih => exact .more hs hv (ih hu ht)

theorem Slides.symm (h : Slides blocked d s t) : Slides blocked (reverse d) t s := by
  induction h with
  | one hs => exact .one (off_reverse.mpr hs)
  | more hs hu _ ih => exact ih.append hu (off_reverse.mpr hs)

theorem walk_eight (h : Upward d) (s : Square) :
    walk d 8 s = walk d 7 s ∧ walk (reverse d) 8 s = walk (reverse d) 7 s := by
  cases h <;> revert s <;> decide +kernel

theorem lt_of_off (h : Upward d) (hs : s.Off d t) : s < t := by
  have := val_eq_of_off hs
  apply Fin.lt_def.mpr
  cases h <;> omega

theorem gt_of_off_reverse (h : Upward d) (hs : s.Off (reverse d) t) :
    t < s := by
  have := val_eq_of_off hs
  apply Fin.lt_def.mpr
  cases h <;> simp only [reverse] at this <;> omega

/-- A ray goes on from the first square it meets. -/
theorem ray_eq (h : ∀ s, walk d 8 s = walk d 7 s) (hs : s.Off d u) :
    ray s d = u :: ray u d := by
  rw [ray, ← h, walk, step?_eq_some_iff.mpr hs]
  rfl

section Ordered

variable {R : Square → Square → Prop}

theorem walk_rel (htrans : ∀ {a b c}, R a b → R b c → R a c)
    (hstep : ∀ {a b : Square}, a.Off d b → R a b) {n : Nat}
    (ht : t ∈ walk d n s) : R s t := by
  induction n generalizing s with
  | zero => simp [walk] at ht
  | succ n ih =>
    rw [walk] at ht
    split at ht
    · next u hu =>
      have hu := step?_eq_some_iff.mp hu
      rcases List.mem_cons.mp ht with rfl | ht
      · exact hstep hu
      · exact htrans (hstep hu) (ih ht)
    · simp at ht

theorem slides_of_mem_walk (htrans : ∀ {a b c}, R a b → R b c → R a c)
    (hstep : ∀ {a b : Square}, a.Off d b → R a b) {n : Nat}
    (ht : t ∈ walk d n s) (hfree : ∀ u ∈ walk d n s, R u t → ¬ blocked u) :
    Slides blocked d s t := by
  induction n generalizing s with
  | zero => simp [walk] at ht
  | succ n ih =>
    rw [walk] at ht hfree
    split at ht
    · next u hu =>
      rw [hu] at hfree
      have hu := step?_eq_some_iff.mp hu
      rcases List.mem_cons.mp ht with rfl | ht
      · exact .one hu
      · have hut := walk_rel (R := R) htrans hstep ht
        refine .more hu (hfree u List.mem_cons_self hut) (ih ht ?_)
        intro v hv
        exact hfree v (List.mem_cons_of_mem u hv)
    · simp at ht

/-- Sliding reaches the squares of the ray before which no square of it is blocked. -/
theorem slides_iff (htrans : ∀ {a b c}, R a b → R b c → R a c) (hirrefl : ∀ a, ¬ R a a)
    (hstep : ∀ {a b : Square}, a.Off d b → R a b)
    (h : ∀ s, walk d 8 s = walk d 7 s) :
    Slides blocked d s t ↔ t ∈ ray s d ∧ ∀ u ∈ ray s d, R u t → ¬ blocked u := by
  constructor
  · intro hs
    induction hs with
    | @one s t hs =>
      rw [ray_eq h hs]
      refine ⟨List.mem_cons_self, fun u hu hut => ?_⟩
      rcases List.mem_cons.mp hu with rfl | hu
      · exact (hirrefl u hut).elim
      · exact (hirrefl t (htrans (walk_rel (R := R) htrans hstep hu) hut)).elim
    | @more s t u hs hu _ ih =>
      rw [ray_eq h hs]
      refine ⟨List.mem_cons_of_mem u ih.1, fun v hv hvt => ?_⟩
      rcases List.mem_cons.mp hv with rfl | hv
      · exact hu
      · exact ih.2 v hv hvt
  · rintro ⟨ht, hfree⟩
    exact slides_of_mem_walk (R := R) htrans hstep ht hfree

theorem pairwise_walk (htrans : ∀ {a b c}, R a b → R b c → R a c)
    (hstep : ∀ {a b : Square}, a.Off d b → R a b) (n : Nat) (s : Square) :
    (walk d n s).Pairwise R := by
  induction n generalizing s with
  | zero => exact .nil
  | succ n ih =>
    rw [walk]
    split
    · next u _ => exact .cons (fun t ht => walk_rel (R := R) htrans hstep ht) (ih u)
    · exact .nil

/-- What a list in some order gives up to its first occupied square. -/
theorem mem_upToFirst {occupied : Bitboard} {l : List Square}
    (htrans : ∀ {a b c}, R a b → R b c → R a c) (hirrefl : ∀ a, ¬ R a a) (hl : l.Pairwise R) :
    t ∈ upToFirst occupied l ↔ t ∈ l ∧ ∀ u ∈ l, R u t → u ∉ occupied := by
  induction l with
  | nil => simp [upToFirst]
  | cons u l ih =>
    obtain ⟨hu, hl⟩ := List.pairwise_cons.mp hl
    have hfirst : ∀ v ∈ u :: l, ¬ R v u := by
      rintro v hv hvu
      rcases List.mem_cons.mp hv with rfl | hv
      · exact hirrefl v hvu
      · exact hirrefl u (htrans (hu v hv) hvu)
    rw [upToFirst]
    by_cases htu : t = u
    · subst htu
      have hin : t ∈ if t ∈ occupied then [t] else t :: upToFirst occupied l := by
        split <;> exact List.mem_cons_self
      exact iff_of_true hin ⟨List.mem_cons_self, fun v hv hvt => (hfirst v hv hvt).elim⟩
    · by_cases ho : u ∈ occupied
      · rw [if_pos ho, List.mem_singleton, List.mem_cons]
        refine iff_of_false htu fun h => ?_
        exact h.2 u List.mem_cons_self (hu t (h.1.resolve_left htu)) ho
      · rw [if_neg ho, List.mem_cons, List.mem_cons, or_iff_right htu, or_iff_right htu, ih hl]
        simp [ho]

end Ordered

theorem lt_of_mem_ray (h : Upward d) (ht : t ∈ ray s d) : s < t :=
  walk_rel Fin.lt_trans (lt_of_off h) ht

theorem gt_of_mem_ray_reverse (h : Upward d) (ht : t ∈ ray s (reverse d)) : t < s :=
  walk_rel (R := fun a b => b < a) (fun hab hbc => Fin.lt_trans hbc hab) (gt_of_off_reverse h) ht

theorem slides_iff_ray (h : Upward d) :
    Slides blocked d s t ↔ t ∈ ray s d ∧ ∀ u ∈ ray s d, u < t → ¬ blocked u :=
  slides_iff Fin.lt_trans Fin.lt_irrefl (lt_of_off h) (fun s => (walk_eight h s).1)

theorem slides_reverse_iff_ray (h : Upward d) :
    Slides blocked (reverse d) s t ↔
      t ∈ ray s (reverse d) ∧ ∀ u ∈ ray s (reverse d), t < u → ¬ blocked u :=
  slides_iff (R := fun a b => b < a) (fun hab hbc => Fin.lt_trans hbc hab) Fin.lt_irrefl
    (gt_of_off_reverse h) (fun s => (walk_eight h s).2)

theorem mem_upToFirst_ray (h : Upward d) {occupied : Bitboard} :
    t ∈ upToFirst occupied (ray s d) ↔ Slides (· ∈ occupied) d s t := by
  have hsorted : (ray s d).Pairwise (· < ·) := pairwise_walk (R := (· < ·)) Fin.lt_trans (lt_of_off h) 7 s
  rw [slides_iff_ray h, mem_upToFirst (R := (· < ·)) Fin.lt_trans Fin.lt_irrefl hsorted]

theorem mem_upToFirst_ray_reverse (h : Upward d) {occupied : Bitboard} :
    t ∈ upToFirst occupied (ray s (reverse d)) ↔ Slides (· ∈ occupied) (reverse d) s t := by
  have htrans : ∀ {a b c : Square}, b < a → c < b → c < a := fun hab hbc => Fin.lt_trans hbc hab
  have hsorted : (ray s (reverse d)).Pairwise (fun a b => b < a) :=
    pairwise_walk (R := fun a b => b < a) htrans (gt_of_off_reverse h) 7 s
  rw [slides_reverse_iff_ray h, mem_upToFirst (R := fun a b => b < a) htrans Fin.lt_irrefl hsorted]

theorem mem_line : t ∈ line s d ↔ t ∈ ray s d ∨ t ∈ ray s (reverse d) := by
  simp [line, reverse]

/-- A line that rises from rank to rank goes on by the same number of files each time. -/
theorem file_of_mem_ray (h : Upward d) (hd : d.1 = 1) (ht : t ∈ ray s d) :
    (t.file : Int) - s.file = d.2 * (t.rank - s.rank) := by
  refine walk_rel (R := fun a b => (b.file : Int) - a.file = d.2 * (b.rank - a.rank)) ?_ ?_ ht <;>
    cases h <;> simp only [Off] at hd ⊢ <;> omega

theorem file_of_mem_ray_reverse (h : Upward d) (hd : d.1 = 1) (ht : t ∈ ray s (reverse d)) :
    (t.file : Int) - s.file = d.2 * (t.rank - s.rank) := by
  refine walk_rel (R := fun a b => (b.file : Int) - a.file = d.2 * (b.rank - a.rank)) ?_ ?_ ht <;>
    cases h <;> simp only [Off, reverse] at hd ⊢ <;> omega

/-- No two squares of a line, the one it goes through included, share a rank. -/
def Rising (s : Square) (line : Bitboard) : Prop :=
  ∀ u v, u = s ∨ u ∈ line → v = s ∨ v ∈ line → u.rank = v.rank → u = v

theorem rising_line (h : Upward d) (hd : d.1 = 1) (s : Square) : Rising s (line s d) := by
  have hfile : ∀ u, u = s ∨ u ∈ line s d → (u.file : Int) - s.file = d.2 * (u.rank - s.rank) := by
    rintro u (rfl | hu)
    · simp
    · rcases mem_line.mp hu with hu | hu
      · exact file_of_mem_ray h hd hu
      · exact file_of_mem_ray_reverse h hd hu
  intro u v hu hv hr
  have hu := hfile u hu
  have hv := hfile v hv
  rw [hr] at hu
  exact eq_of_coords hr (Fin.ext (by omega))

/-- On a rising line the reflection reverses the order of the squares. -/
theorem flipVertical_lt_flipVertical (h : s.rank = t.rank → s = t) :
    s.flipVertical < t.flipVertical ↔ t < s := by
  have hs := val_eq s
  have ht := val_eq t
  have hne : s.rank.val = t.rank.val → s.val = t.val := fun hr => congrArg Fin.val (h (Fin.ext hr))
  simp only [Fin.lt_def, flipVertical, ofCoords, Fin.val_rev]
  omega

end Square

namespace Attack

theorem flipVertical_single (s : Square) :
    (Bitboard.single s).flipVertical = .single s.flipVertical := by
  refine Bitboard.ext fun t => ?_
  rw [Bitboard.mem_flipVertical, Bitboard.mem_single, Bitboard.mem_single]
  constructor
  · rintro rfl
    rw [Square.flipVertical_flipVertical]
  · rintro rfl
    rw [Square.flipVertical_flipVertical]

variable {b line occupied : Bitboard}

theorem clear_iff (hs : s ∉ b) :
    Word.Clear b.bits s t ↔ ∀ u ∈ b, s < u → ¬ u < t := by
  constructor
  · intro h u hu hsu hut
    rw [Bitboard.mem_iff, h u (Nat.le_of_lt hsu) hut] at hu
    cases hu
  · intro h j hj hjt
    cases hb : Word.bit b.bits j with
    | false => rfl
    | true =>
      have hlt : j < 64 := Nat.lt_trans hjt t.isLt
      have hu : (⟨j, hlt⟩ : Square) ∈ b := Bitboard.mem_iff.mpr hb
      have hne : s ≠ ⟨j, hlt⟩ := fun he => hs (he ▸ hu)
      have hsj : s < ⟨j, hlt⟩ := Fin.lt_def.mpr (Nat.lt_of_le_of_ne hj (Fin.val_ne_iff.mpr hne))
      exact (h _ hu hsj hjt).elim

/-- The subtraction marks what lies above the slider up to the first blocker. -/
theorem bit_above (hs : s ∉ b) :
    Word.bit (b.bits - s.bit) t = Word.bit b.bits t ↔
      ¬ (s ≤ t ∧ ∀ u ∈ b, s < u → ¬ u < t) := by
  rw [Word.bit_sub_square t.isLt, clear_iff hs, Fin.le_def]

/-- With the bytes in reverse order the subtraction marks what lies below the slider. -/
theorem bit_below (hline : Square.Rising s line) (hs : s ∉ line) (hb : ∀ u ∈ b, u ∈ line)
    (ht : t ∈ line) :
    Word.bit (Bitboard.swapBytes (Bitboard.swapBytes b.bits - Bitboard.swapBytes s.bit)) t =
        Word.bit b.bits t ↔
      ¬ (t ≤ s ∧ ∀ u ∈ b, t < u → ¬ u < s) := by
  have hlt : ∀ u v, u = s ∨ u ∈ line → v = s ∨ v ∈ line →
      (u.flipVertical < v.flipVertical ↔ v < u) :=
    fun u v hu hv => Square.flipVertical_lt_flipVertical (hline u v hu hv)
  have hs' : s.flipVertical ∉ b.flipVertical := by
    rw [Bitboard.mem_flipVertical, Square.flipVertical_flipVertical]
    exact fun h => hs (hb s h)
  have hbit : Bitboard.swapBytes s.bit = s.flipVertical.bit :=
    congrArg Bitboard.bits (flipVertical_single s)
  have h := bit_above (t := t.flipVertical) hs'
  rw [Bitboard.flipVertical, Word.bit_swapBytes, Square.flipVertical_flipVertical] at h
  rw [hbit, Word.bit_swapBytes, h, ← not_lt, hlt t s (.inr ht) (.inl rfl), not_lt]
  refine not_congr (and_congr_right fun _ => ?_)
  constructor
  · intro h u hu htu hus
    refine h u.flipVertical ?_ ((hlt s u (.inl rfl) (.inr (hb u hu))).mpr hus)
      ((hlt u t (.inr (hb u hu)) (.inr ht)).mpr htu)
    exact Bitboard.mem_flipVertical.mpr (by rwa [Square.flipVertical_flipVertical])
  · intro h u hu hsu hut
    have hu : u.flipVertical ∈ b := Bitboard.mem_flipVertical.mp hu
    rw [← Square.flipVertical_flipVertical u] at hsu hut
    exact h _ hu ((hlt _ t (.inr (hb _ hu)) (.inr ht)).mp hut)
      ((hlt s _ (.inl rfl) (.inr (hb _ hu))).mp hsu)

theorem mem_slide (hline : Square.Rising s line) (hs : s ∉ line) :
    t ∈ slide line occupied s ↔ t ∈ line ∧
      ((s ≤ t ∧ ∀ u ∈ line, s < u → u < t → u ∉ occupied) ∨
        (t ≤ s ∧ ∀ u ∈ line, t < u → u < s → u ∉ occupied)) := by
  have hb : s ∉ occupied &&& line := by simp [hs]
  have hsub : ∀ u ∈ occupied &&& line, u ∈ line := fun u hu => (Bitboard.mem_and.mp hu).2
  have habove := bit_above (t := t) hb
  have hbelow := fun ht : t ∈ line => bit_below hline hs hsub ht
  have hfree : ∀ x y : Square, (∀ u ∈ occupied &&& line, x < u → ¬ u < y) ↔
      ∀ u ∈ line, x < u → u < y → u ∉ occupied := by
    intro x y
    simp only [Bitboard.mem_and]
    exact ⟨fun h u hl hx hy ho => h u ⟨ho, hl⟩ hx hy, fun h u hu hx hy => h u hu.2 hx hy hu.1⟩
  simp only [hfree] at habove hbelow
  have hmem : t ∈ slide line occupied s ↔ t ∈ line ∧
      Word.bit ((occupied &&& line).bits - s.bit) t ≠
        Word.bit (Bitboard.swapBytes (Bitboard.swapBytes (occupied &&& line).bits -
          Bitboard.swapBytes s.bit)) t := by
    rw [Bitboard.mem_iff, Bitboard.mem_iff, slide, Word.bit_and, Word.bit_xor, Bool.and_eq_true,
      and_comm, bne_iff_ne]
  rw [hmem]
  refine and_congr_right fun ht => ?_
  have hne : s ≠ t := fun he => hs (he ▸ ht)
  have hone : ¬ (s ≤ t ∧ t ≤ s) := fun h => hne (le_antisymm h.1 h.2)
  constructor
  · intro hab
    by_contra hn
    rw [not_or] at hn
    exact hab ((habove.mpr hn.1).trans ((hbelow ht).mpr hn.2).symm)
  · rintro (h | h) hab
    · have hb := (hbelow ht).mpr fun h' => hone ⟨h.1, h'.1⟩
      exact habove.mp (hab.trans hb) h
    · have ha := habove.mpr fun h' => hone ⟨h'.1, h.1⟩
      exact (hbelow ht).mp (hab.symm.trans ha) h

end Attack

open Square in
/-- The attacks on one rising line are the squares that the two slides along it reach. -/
theorem Attack.mem_slide_line (h : Upward d) (hd : d.1 = 1) {occupied : Bitboard} :
    t ∈ Attack.slide (Square.line s d) occupied s ↔
      Slides (· ∈ occupied) d s t ∨ Slides (· ∈ occupied) (reverse d) s t := by
  have hs : s ∉ Square.line s d := by
    rw [mem_line]
    rintro (hr | hr)
    · exact lt_irrefl s (lt_of_mem_ray h hr)
    · exact lt_irrefl s (gt_of_mem_ray_reverse h hr)
  rw [mem_slide (rising_line h hd s) hs, slides_iff_ray h, slides_reverse_iff_ray h, mem_line]
  constructor
  · rintro ⟨ht | ht, ⟨hle, hfree⟩ | ⟨hle, hfree⟩⟩
    · left
      refine ⟨ht, fun u hu hut => hfree u (mem_line.mpr (Or.inl hu)) (lt_of_mem_ray h hu) hut⟩
    · exact (not_le.mpr (lt_of_mem_ray h ht) hle).elim
    · exact (not_le.mpr (gt_of_mem_ray_reverse h ht) hle).elim
    · right
      refine ⟨ht, fun u hu hut =>
        hfree u (mem_line.mpr (Or.inr hu)) hut (gt_of_mem_ray_reverse h hu)⟩
  · rintro (⟨ht, hfree⟩ | ⟨ht, hfree⟩)
    · refine ⟨Or.inl ht, Or.inl ⟨le_of_lt (lt_of_mem_ray h ht), fun u hu hsu hut => ?_⟩⟩
      rcases mem_line.mp hu with hu | hu
      · exact hfree u hu hut
      · exact (lt_asymm hsu (gt_of_mem_ray_reverse h hu)).elim
    · refine ⟨Or.inr ht, Or.inr ⟨le_of_lt (gt_of_mem_ray_reverse h ht), fun u hu htu hus => ?_⟩⟩
      rcases mem_line.mp hu with hu | hu
      · exact (lt_asymm hus (lt_of_mem_ray h hu)).elim
      · exact hfree u hu htu

end ChessEval
