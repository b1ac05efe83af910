import ChessEval.Proofs.Board.Placement
import ChessEval.Proofs.Board.RankLookup

/-! Attack sets against the rules: what a piece attacks, and who attacks a square. -/
namespace ChessEval

open Square Rules

variable {p : Position} {b : Board} {c : Color} {k : Piece} {d : Step} {s t u : Square}
  {occupied : Bitboard} {blocked : Square → Prop}

namespace Square

theorem mem_steps {ds : List Step} : t ∈ s.steps ds ↔ ∃ d ∈ ds, s.Off d t := by
  simp only [steps, List.mem_filterMap, step?_eq_some_iff]

/-- No walk comes back to where it started. -/
theorem not_slides_self (hd : d ∈ diagonals ∨ d ∈ straights) : ¬ Slides blocked d s s := by
  have hup : Upward d ∨ Upward (reverse d) := by
    simp only [diagonals, straights, List.mem_cons, List.not_mem_nil, or_false] at hd
    rcases hd with (rfl | rfl | rfl | rfl) | (rfl | rfl | rfl | rfl)
    · exact .inl .diagonal
    · exact .inr .diagonal
    · exact .inl .antidiagonal
    · exact .inr .antidiagonal
    · exact .inl .file
    · exact .inr .file
    · exact .inl .rank
    · exact .inr .rank
  intro h
  rcases hup with hup | hup
  · exact lt_irrefl s (lt_of_mem_ray hup ((slides_iff_ray hup).mp h).1)
  · exact lt_irrefl s (lt_of_mem_ray hup ((slides_iff_ray hup).mp h.symm).1)

theorem slides_congr {free : Square → Prop} (h : ∀ u, blocked u ↔ free u) :
    Slides blocked d s t ↔ Slides free d s t := by
  rw [show blocked = free from funext fun u => propext (h u)]

/-- With fewer squares in the way a piece slides at least as far. -/
theorem Slides.mono {free : Square → Prop} (h : ∀ u, free u → blocked u)
    (hs : Slides blocked d s t) : Slides free d s t := by
  induction hs with
  | one hoff => exact .one hoff
  | more hoff hu _ ih => exact .more hoff (fun hfree => hu (h _ hfree)) ih

end Square

namespace Attack

theorem mem_knight : t ∈ knight s ↔ KnightStep s t := by
  rw [knight, knightTable]
  simp only [Fin.getElem_fin, Vector.getElem_ofFn, Bitboard.mem_ofList, mem_steps, Step.knight, Off,
    KnightStep, Play.rankDistance, Play.fileDistance]
  simp
  omega

theorem mem_king : t ∈ king s ↔ KingStep s t := by
  have hne : s ≠ t ↔ ¬ (s.rank.val = t.rank.val ∧ s.file.val = t.file.val) := by
    refine not_congr ⟨fun h => by simp [h], fun h => eq_of_coords (Fin.ext h.1) (Fin.ext h.2)⟩
  rw [king, kingTable, KingStep, hne]
  simp only [Fin.getElem_fin, Vector.getElem_ofFn, Bitboard.mem_ofList, mem_steps, Step.king, Off,
    Play.rankDistance, Play.fileDistance]
  simp
  omega

theorem mem_pawn : t ∈ pawn c s ↔ PawnStep c s t := by
  cases c <;> simp [pawn, whitePawnTable, blackPawnTable, mem_steps, Step.pawn, PawnStep,
    Color.forward, or_comm]

/-- A bishop attacks what it reaches by walking along a diagonal up to the first occupied square. -/
theorem mem_bishop_iff : t ∈ bishop occupied s ↔ ∃ d ∈ diagonals, s.Slides (· ∈ occupied) d t := by
  simp only [bishop, Bitboard.mem_or, diagonalTable, antidiagonalTable, Fin.getElem_fin,
    Vector.getElem_ofFn, mem_slide_line .diagonal rfl, mem_slide_line .antidiagonal rfl]
  simp [diagonals, reverse, or_assoc]

theorem mem_rook_iff : t ∈ rook occupied s ↔ ∃ d ∈ straights, s.Slides (· ∈ occupied) d t := by
  simp only [rook, Bitboard.mem_or, fileTable, Fin.getElem_fin, Vector.getElem_ofFn,
    mem_slide_line .file rfl, mem_rank]
  simp [straights, reverse, or_assoc]

theorem mem_bishop (hb : ∀ u, b u ≠ none ↔ u ∈ occupied) :
    t ∈ bishop occupied s ↔ Slide b diagonals s t := by
  simp only [mem_bishop_iff, Slide, slides_congr hb]

theorem mem_rook (hb : ∀ u, b u ≠ none ↔ u ∈ occupied) :
    t ∈ rook occupied s ↔ Slide b straights s t := by
  simp only [mem_rook_iff, Slide, slides_congr hb]

/-- Sliders attack the squares that walking along their directions reaches, the first occupied one
of each included, and never their own, whatever else is occupied. -/
theorem sliders_walk_rays (occupied : Bitboard) (s : Square) :
    (∀ t, t ∈ bishop occupied s ↔ ∃ d ∈ diagonals, s.Slides (· ∈ occupied) d t) ∧
      (∀ t, t ∈ rook occupied s ↔ ∃ d ∈ straights, s.Slides (· ∈ occupied) d t) ∧
      s ∉ bishop occupied s ∧ s ∉ rook occupied s := by
  refine ⟨fun t => mem_bishop_iff, fun t => mem_rook_iff, ?_, ?_⟩
  · rw [mem_bishop_iff]
    rintro ⟨d, hd, h⟩
    exact not_slides_self (Or.inl hd) h
  · rw [mem_rook_iff]
    rintro ⟨d, hd, h⟩
    exact not_slides_self (Or.inr hd) h

end Attack

/-- With fewer squares occupied a piece attacks at least as much. -/
theorem Piece.attacks_mono {a : Bitboard} (h : ∀ u, u ∈ a → u ∈ occupied)
    (ht : t ∈ k.attacks c s occupied) : t ∈ k.attacks c s a := by
  have hslide : ∀ ds : List Step, (∃ d ∈ ds, s.Slides (· ∈ occupied) d t) →
      ∃ d ∈ ds, s.Slides (· ∈ a) d t := by
    rintro ds ⟨d, hd, hs⟩
    exact ⟨d, hd, hs.mono h⟩
  have hbishop : t ∈ Attack.bishop occupied s → t ∈ Attack.bishop a s := by
    intro ht
    exact Attack.mem_bishop_iff.mpr (hslide _ (Attack.mem_bishop_iff.mp ht))
  have hrook : t ∈ Attack.rook occupied s → t ∈ Attack.rook a s := by
    intro ht
    exact Attack.mem_rook_iff.mpr (hslide _ (Attack.mem_rook_iff.mp ht))
  cases k with
  | pawn => exact ht
  | knight => exact ht
  | bishop => exact hbishop ht
  | rook => exact hrook ht
  | queen => exact Bitboard.mem_or.mpr ((Bitboard.mem_or.mp ht).imp hbishop hrook)
  | king => exact ht

/-- The attack sets are those of the rules. -/
theorem mem_attacks (hb : ∀ u, b u ≠ none ↔ u ∈ occupied) :
    t ∈ k.attacks c s occupied ↔ Attacks b c k s t := by
  cases k with
  | pawn => exact Attack.mem_pawn
  | knight => exact Attack.mem_knight
  | bishop => exact Attack.mem_bishop hb
  | rook => exact Attack.mem_rook hb
  | queen => rw [Piece.attacks, Bitboard.mem_or, Attack.mem_bishop hb, Attack.mem_rook hb, Attacks]
  | king => exact Attack.mem_king

namespace Rules

theorem pawnStep_symm : PawnStep c.opponent s t ↔ PawnStep c t s := by
  cases c <;> simp only [PawnStep, Off, Color.forward, Color.opponent] <;> omega

theorem slide_symm {ds : List Step} (hd : ∀ d ∈ ds, reverse d ∈ ds) :
    Slide b ds s t ↔ Slide b ds t s := by
  constructor
  · rintro ⟨d, hm, h⟩
    exact ⟨reverse d, hd d hm, h.symm⟩
  · rintro ⟨d, hm, h⟩
    exact ⟨reverse d, hd d hm, h.symm⟩

theorem slide_diagonals_symm : Slide b diagonals s t ↔ Slide b diagonals t s :=
  slide_symm (by decide)

theorem slide_straights_symm : Slide b straights s t ↔ Slide b straights t s :=
  slide_symm (by decide)

theorem knightStep_symm : KnightStep s t ↔ KnightStep t s := by
  simp only [KnightStep, Play.rankDistance, Play.fileDistance]
  omega

theorem kingStep_symm : KingStep s t ↔ KingStep t s := by
  have hr : Play.rankDistance s t = Play.rankDistance t s := by
    simp only [Play.rankDistance]
    omega
  have hf : Play.fileDistance s t = Play.fileDistance t s := by
    simp only [Play.fileDistance]
    omega
  rw [KingStep, KingStep, hr, hf, ne_comm]

end Rules

/-- Looking back from a square finds the pieces that attack it. -/
theorem Position.mem_attackers (hb : ∀ u, b u ≠ none ↔ u ∈ p.occupied) :
    t ∈ p.attackers s c ↔ ∃ k, t ∈ p.pieces c k ∧ Attacks b c k t s := by
  simp only [attackers, Bitboard.mem_or, Bitboard.mem_and, Attack.mem_pawn, Attack.mem_knight,
    Attack.mem_king, Attack.mem_bishop hb, Attack.mem_rook hb]
  rw [pawnStep_symm, knightStep_symm, kingStep_symm, slide_diagonals_symm, slide_straights_symm]
  constructor
  · rintro ((((⟨ha, h⟩ | ⟨ha, h⟩) | ⟨ha, h⟩) | ⟨ha, h | h⟩) | ⟨ha, h | h⟩)
    · exact ⟨_, h, ha⟩
    · exact ⟨_, h, ha⟩
    · exact ⟨_, h, ha⟩
    · exact ⟨_, h, ha⟩
    · exact ⟨_, h, Or.inl ha⟩
    · exact ⟨_, h, ha⟩
    · exact ⟨_, h, Or.inr ha⟩
  · rintro ⟨k, h, ha⟩
    cases k with
    | pawn => exact Or.inl (Or.inl (Or.inl (Or.inl ⟨ha, h⟩)))
    | knight => exact Or.inl (Or.inl (Or.inl (Or.inr ⟨ha, h⟩)))
    | bishop => exact Or.inl (Or.inr ⟨ha, Or.inl h⟩)
    | rook => exact Or.inr ⟨ha, Or.inl h⟩
    | queen =>
      rcases ha with ha | ha
      · exact Or.inl (Or.inr ⟨ha, Or.inr h⟩)
      · exact Or.inr ⟨ha, Or.inr h⟩
    | king => exact Or.inl (Or.inl (Or.inr ⟨ha, h⟩))

/-- No piece of the color attacks the square. -/
theorem Position.attackers_isEmpty_iff (hp : p.Consistent) :
    (p.attackers s c).isEmpty = true ↔ ¬ Attacked p.pieceAt? c s := by
  rw [Bitboard.isEmpty_iff]
  simp only [mem_attackers fun u => pieceAt?_ne_none_iff hp, ← pieceAt?_eq_some_iff hp, Attacked,
    not_exists]

end ChessEval
