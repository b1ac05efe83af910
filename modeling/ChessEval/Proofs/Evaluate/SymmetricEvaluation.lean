import ChessEval.Proofs.Board.Reading
import ChessEval.Proofs.Evaluate.Alike
import ChessEval.Proofs.Network.SymmetricFeatures

/-! A position and its images get one evaluation, from the side to move: the color-flipped image
with any networks, the reflected one with networks that do not ask a classifier. -/
namespace ChessEval

open Position

variable {p : Position}

theorem Material.squareBonus_flip (c : Color) (k : Piece) (s : Square) :
    squareBonus c k s.flipVertical = squareBonus c.opponent k s := by
  cases c <;> simp [squareBonus, Color.opponent]

theorem Int32.sum_perm {l l' : List Int32} (h : l.Perm l') : l.sum = l'.sum := by
  induction h with
  | nil => rfl
  | cons x _ ih => rw [List.sum_cons, ih, List.sum_cons]
  | swap x y l =>
    simp only [List.sum_cons]
    rw [← Int32.add_assoc, Int32.add_comm y x, Int32.add_assoc]
  | trans _ _ ih ih' => exact ih.trans ih'

namespace Position

theorem nonPawnMaterial_image (σ : Symmetry) (p : Position) (c : Color) :
    (p.image σ).nonPawnMaterial c = p.nonPawnMaterial (σ.color c) := by
  simp only [nonPawnMaterial, count_image]

/-- The two colors' material is added in either order. -/
theorem nonPawnMaterialTotal_image (σ : Symmetry) (p : Position) :
    (p.image σ).nonPawnMaterialTotal = p.nonPawnMaterialTotal := by
  rw [nonPawnMaterialTotal, nonPawnMaterial_image, nonPawnMaterial_image]
  cases σ
  · exact Int32.add_comm _ _
  · rfl

theorem materialBalance_image (σ : Symmetry) (p : Position) (c : Color) :
    (p.image σ).materialBalance c = p.materialBalance (σ.color c) := by
  simp only [materialBalance, count_image, nonPawnMaterial_image, Symmetry.color_opponent]

theorem countBoth_image (σ : Symmetry) (p : Position) (k : Piece) :
    (p.image σ).countBoth k = p.countBoth k := by
  rw [countBoth, count_image, count_image]
  cases σ
  · exact Nat.add_comm _ _
  · rfl

theorem pieceCount_image (σ : Symmetry) (p : Position) : (p.image σ).pieceCount = p.pieceCount := by
  rw [pieceCount, occupied_image, Symmetry.card_set, pieceCount]

theorem Sound.alike_image (hp : p.Sound) (σ : Symmetry) : Alike p (p.image σ) where
  inCheck := hp.inCheck?_image σ
  balance := by rw [materialBalance_image, turn_image, Symmetry.color_color]
  nonPawn := p.nonPawnMaterialTotal_image σ
  countBoth := p.countBoth_image σ
  pieceCount := p.pieceCount_image σ
  halfmoves := p.halfmoves_image σ
  ours t := by rw [t.refresh?_image hp, turn_image, Symmetry.color_color]
  theirs t := by
    rw [t.refresh?_image hp, turn_image, Symmetry.color_opponent, Symmetry.color_color]

theorem pieceSquareSum_colorFlipped (p : Position) (c : Color) :
    p.colorFlipped.pieceSquareSum c = p.pieceSquareSum c.opponent := by
  have hkind : ∀ k : Piece,
      ((p.colorFlipped.pieces c k).toList.map fun s => k.worth + Material.squareBonus c k s).sum =
        ((p.pieces c.opponent k).toList.map
          fun s => k.worth + Material.squareBonus c.opponent k s).sum := by
    intro k
    rw [show p.colorFlipped.pieces c k = Symmetry.flip.set (p.pieces c.opponent k) from
      pieces_image .flip p c k, Int32.sum_perm ((Symmetry.toList_set_perm _ _).map _),
      List.map_map]
    simp only [Function.comp_def, Symmetry.square, Material.squareBonus_flip]
  simp only [pieceSquareSum, hkind]

/-- Left and right are not scored alike, so the reflection has no such law. -/
theorem pieceSquareScore_colorFlipped (p : Position) :
    p.colorFlipped.pieceSquareScore = p.pieceSquareScore := by
  have ht : p.colorFlipped.turn = p.turn.opponent := turn_image .flip p
  rw [pieceSquareScore, pieceSquareSum_colorFlipped, pieceSquareSum_colorFlipped, ht,
    Color.opponent_opponent, pieceSquareScore]

end Position

namespace Evaluator

/-- Out of check, a position that a FEN tells and its color-flipped image, out of check too, have
the same breakdown. There is one for divisors that divide and a classifier with hidden numbers. -/
theorem evaluateFresh?_colorFlipped {text : String} (h : ofFen text = .ok p)
    (hc : p.inCheck? = some false) :
    p.colorFlipped.inCheck? = some false ∧ ∀ (e : Evaluator) (nets : Networks) (optimism : Int32),
      e.evaluateFresh? nets p.colorFlipped optimism = e.evaluateFresh? nets p optimism ∧
        (e.config.Divides → nets.Classifies →
          ∃ b, e.evaluateFresh? nets p optimism = some b) := by
  have hp := sound_of_ofFen h
  refine ⟨(hp.inCheck?_image .flip).trans hc, fun e nets optimism => ⟨?_, fun he hn => ?_⟩⟩
  · exact (hp.alike_image .flip).evaluateFresh? (.inr p.pieceSquareScore_colorFlipped) hp
      (hp.image .flip) e optimism
  · exact exists_evaluateFresh? he hn hp hc optimism

theorem evaluateFresh?_colorFlipped_pawnEnding :
    ∃ p, ofFen "4k3/2p5/8/8/8/8/4PP2/4K3 w - - 3 20" = .ok p ∧ p.inCheck? = some false ∧
      p.colorFlipped.inCheck? = some false ∧ ∃ b,
        default.evaluateFresh? ((Networks.synthetic 7).withClassifier (.constant .zero)) p 25 =
          some b ∧
        default.evaluateFresh? ((Networks.synthetic 7).withClassifier (.constant .zero))
          p.colorFlipped 25 = some b := by
  obtain ⟨p, hp, hc⟩ := exists_of_ofFen "4k3/2p5/8/8/8/8/4PP2/4K3 w - - 3 20"
    (fun p => p.inCheck? == some false) (by decide +kernel)
  have hc : p.inCheck? = some false := by simpa using hc
  obtain ⟨hflipped, heq⟩ := evaluateFresh?_colorFlipped hp hc
  obtain ⟨heq, hsome⟩ := heq default ((Networks.synthetic 7).withClassifier (.constant .zero)) 25
  obtain ⟨b, hb⟩ := hsome EvalConfig.divides_default fun c hc => by
    obtain rfl := Option.some.inj hc
    exact Nat.one_ne_zero
  exact ⟨p, hp, hc, hflipped, b, hb, heq.trans hb⟩

/-- Out of check, a position that a FEN tells and its reflected image, out of check too, have the
same breakdown where no classifier is asked. There is one for divisors that divide. -/
theorem evaluateFresh?_reflected {text : String} (h : ofFen text = .ok p)
    (hc : p.inCheck? = some false) :
    p.reflected.inCheck? = some false ∧ ∀ (e : Evaluator) (nets : Networks) (optimism : Int32),
      nets.classifier = none →
        e.evaluateFresh? nets p.reflected optimism = e.evaluateFresh? nets p optimism ∧
          (e.config.Divides → ∃ b, e.evaluateFresh? nets p optimism = some b) := by
  have hp := sound_of_ofFen h
  refine ⟨(hp.inCheck?_image .reflect).trans hc, fun e nets optimism hn => ⟨?_, fun he => ?_⟩⟩
  · exact (hp.alike_image .reflect).evaluateFresh? (.inl hn) hp (hp.image .reflect) e optimism
  · have hclassifies : nets.Classifies := fun c hc => by
      rw [hn] at hc
      cases hc
    exact exists_evaluateFresh? he hclassifies hp hc optimism

theorem evaluateFresh?_reflected_rookEnding :
    ∃ p, ofFen "3rk3/2p5/8/8/8/8/4PP2/R3K3 w - - 3 20" = .ok p ∧ p.inCheck? = some false ∧
      p.reflected.inCheck? = some false ∧ ∃ b,
        default.evaluateFresh? (Networks.synthetic 7) p 25 = some b ∧
        default.evaluateFresh? (Networks.synthetic 7) p.reflected 25 = some b := by
  obtain ⟨p, hp, hc⟩ := exists_of_ofFen "3rk3/2p5/8/8/8/8/4PP2/R3K3 w - - 3 20"
    (fun p => p.inCheck? == some false) (by decide +kernel)
  have hc : p.inCheck? = some false := by simpa using hc
  obtain ⟨hreflected, heq⟩ := evaluateFresh?_reflected hp hc
  obtain ⟨heq, hsome⟩ := heq default (Networks.synthetic 7) 25 rfl
  obtain ⟨b, hb⟩ := hsome EvalConfig.divides_default
  exact ⟨p, hp, hc, hreflected, b, hb, heq.trans hb⟩

end Evaluator

end ChessEval
