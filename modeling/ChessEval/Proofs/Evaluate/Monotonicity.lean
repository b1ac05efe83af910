import ChessEval.Proofs.Board.FenText
import ChessEval.Proofs.Evaluate.ExactEvaluation

/-! What the clock and the optimism do to the value where no classifier looks at them: a later clock
takes the value closer to zero, and more optimism never lowers it. -/
namespace ChessEval

open Position

variable {p q : Position} {e : Evaluator} {nets : Networks} {l l' m m' : Line} {c : Consultation}
  {b b' : Breakdown} {o o' : Int32} {clock : UInt32} {v w : Int} {choice : NetworkChoice}

namespace Unbounded

theorem damped_mono (h : v ≤ w) : damped p v ≤ damped p w := by
  have hfactor : 0 ≤ 200 - min (p.halfmoves.toNat : Int) 100 := by omega
  have hproduct := mul_le_mul_of_nonneg_right h hfactor
  have hquotient := Int.tdiv_le_tdiv (c := 214) (by decide) hproduct
  exact max_le_max_left _ (min_le_min_left _ hquotient)

theorem damped_nonneg (hv : 0 ≤ v) : 0 ≤ damped p v := by
  have hzero : damped p 0 = 0 := by
    rw [damped, zero_mul]
    rfl
  rw [← hzero]
  exact damped_mono hv

theorem damped_le_of_clock (h : p.halfmoves ≤ q.halfmoves) (hv : 0 ≤ v) :
    damped q v ≤ damped p v := by
  have hclock : p.halfmoves.toNat ≤ q.halfmoves.toNat := h
  have hfactor : 200 - min (q.halfmoves.toNat : Int) 100 ≤
      200 - min (p.halfmoves.toNat : Int) 100 := by omega
  have hproduct := mul_le_mul_of_nonneg_left hfactor hv
  have hquotient := Int.tdiv_le_tdiv (c := 214) (by decide) hproduct
  exact max_le_max_left _ (min_le_min_left _ hquotient)

/-- A later clock takes a value closer to zero and not past it. -/
theorem damped_shrinks (h : p.halfmoves ≤ q.halfmoves) (v : Int) :
    (0 ≤ damped q v ∧ damped q v ≤ damped p v) ∨ (damped p v ≤ damped q v ∧ damped q v ≤ 0) := by
  rcases le_total 0 v with hv | hv
  · exact .inl ⟨damped_nonneg hv, damped_le_of_clock h hv⟩
  · have hnonneg : 0 ≤ damped q (-v) := damped_nonneg (by omega)
    have hle : damped q (-v) ≤ damped p (-v) := damped_le_of_clock h (by omega)
    rw [damped_neg] at hnonneg hle
    rw [damped_neg] at hle
    exact .inr ⟨by omega, by omega⟩

/-- From a hundred half moves on the clock takes no more. -/
theorem damped_eq_of_clock (hp : 100 ≤ p.halfmoves) (hq : 100 ≤ q.halfmoves) (v : Int) :
    damped q v = damped p v := by
  have hpclock : 100 ≤ p.halfmoves.toNat := hp
  have hqclock : 100 ≤ q.halfmoves.toNat := hq
  have hpmin : min (p.halfmoves.toNat : Int) 100 = 100 := by omega
  have hqmin : min (q.halfmoves.toNat : Int) 100 = 100 := by omega
  rw [damped, damped, hpmin, hqmin]

/-- The optimism has a weight that is not negative, and the spread raises it the more the larger
it is. -/
theorem blend_mono (hmaterial : 0 ≤ nonPawnMaterialTotal p) {score complexity : Int}
    (hcomplexity : 0 ≤ complexity) (h : v ≤ w) :
    blend p choice score complexity v ≤ blend p choice score complexity w := by
  have hspread : 0 ≤ complexity + |materialBalance p p.turn - score| :=
    add_nonneg hcomplexity (abs_nonneg _)
  have hshare := Int.tdiv_le_tdiv (c := 512) (by decide) (mul_le_mul_of_nonneg_right h hspread)
  have hweight : 0 ≤ 106 + (nonPawnMaterialTotal p).tdiv 64 :=
    add_nonneg (by decide) (Int.tdiv_nonneg hmaterial (by decide))
  have hproduct := mul_le_mul_of_nonneg_right (add_le_add h hshare) hweight
  exact Int.tdiv_le_tdiv (by decide) (add_le_add_right hproduct _)

theorem blended_mono (hp : p.Consistent) (choice : NetworkChoice) (output : NetworkOutput)
    (h : v ≤ w) : blended p choice output v ≤ blended p choice output w := by
  obtain ⟨hmaterial, -⟩ := hp.nonPawnMaterialTotal_bounds
  have hcomplexity : 0 ≤ complexity output := Int.tdiv_nonneg (abs_nonneg _) (by decide)
  cases choice with
  | lazily => exact le_rfl
  | small | big => exact blend_mono hmaterial hcomplexity h

end Unbounded

namespace Evaluator

/-- Without a classifier neither the clock nor the optimism has a say in which network answers. -/
theorem consult?_of_no_classifier (hn : nets.classifier = none) (p : Position) (clock : UInt32)
    (l : Line) (o o' : Int32) :
    e.consult? nets { p with halfmoves := clock } l o' = e.consult? nets p l o := by
  have hrecheck : ∀ inputs, e.recheck? nets inputs = some (true, none) := fun _ => by
    simp only [recheck?, hn]
  simp only [consult?, hrecheck]
  rfl

/-- The optimism does not enter the reduced score, only what is blended with it. -/
theorem score_of_blend? {s s' x x' : Int64} (h : e.blend? p c o = some (s, x))
    (h' : e.blend? p c o' = some (s', x')) : s' = s := by
  obtain ⟨y, -, h⟩ := Option.bind_eq_some_iff.mp h
  obtain ⟨y', -, h'⟩ := Option.bind_eq_some_iff.mp h'
  obtain ⟨z, hz, h⟩ := Option.bind_eq_some_iff.mp h
  obtain ⟨z', hz', h'⟩ := Option.bind_eq_some_iff.mp h'
  obtain ⟨rfl, -⟩ := Prod.mk.inj (Option.some.inj h)
  obtain ⟨rfl, -⟩ := Prod.mk.inj (Option.some.inj h')
  rw [hz] at hz'
  rw [Option.some.inj hz']

/-- Two evaluations that differ in clock and optimism report the same up to the blend, and the same
blend for the same optimism. -/
theorem breakdown_of_no_classifier (hn : nets.classifier = none)
    (h : e.evaluate? nets p l o = some (b, m))
    (h' : e.evaluate? nets { p with halfmoves := clock } l o' = some (b', m')) :
    b' = { b with blended := b'.blended, value := b'.value } ∧
      (o' = o → b'.blended = b.blended) := by
  rcases evaluate?_cases h with
      ⟨hlazily, v, -, rfl⟩ | ⟨hlazily, c, s, x, v, hconsult, hblend, -, rfl⟩ <;>
    rcases evaluate?_cases h' with
      ⟨hlazily', v', -, rfl⟩ | ⟨hlazily', c', s', x', v', hconsult', hblend', -, rfl⟩
  · exact ⟨rfl, fun _ => rfl⟩
  · exact (hlazily' hlazily).elim
  · exact (hlazily hlazily').elim
  · rw [consult?_of_no_classifier hn p clock l o o', hconsult] at hconsult'
    obtain ⟨rfl, -⟩ := Prod.mk.inj (Option.some.inj hconsult')
    obtain rfl : s' = s := score_of_blend? hblend hblend'
    refine ⟨rfl, ?_⟩
    rintro rfl
    obtain ⟨-, rfl⟩ := Prod.mk.inj (Option.some.inj (hblend.symm.trans hblend'))
    rfl

theorem exists_of_evaluateFresh? (hp : p.Sound) (h : e.evaluateFresh? nets p o = some b) :
    ∃ l m, Line.start? nets p = some l ∧ l.Valid nets [p] ∧
      e.evaluate? nets p l o = some (b, m) := by
  obtain ⟨l, hl, hvalid⟩ := Line.exists_start? hp nets
  simp only [evaluateFresh?, hl, Option.bind_eq_bind, Option.bind_some, Option.pure_def] at h
  obtain ⟨⟨b', m⟩, hb, h⟩ := Option.bind_eq_some_iff.mp h
  obtain rfl := Option.some.inj h
  exact ⟨l, m, hl, hvalid, hb⟩

/-- Two fresh evaluations that differ in clock and optimism have one choice and one output, and
their values are those of the unbounded formula. -/
theorem values_of_no_classifier (he : e.config = .default) (hn : nets.classifier = none)
    (hp : p.Sound) (hq : Sound { p with halfmoves := clock })
    (h : e.evaluateFresh? nets p o = some b)
    (h' : e.evaluateFresh? nets { p with halfmoves := clock } o' = some b') :
    b' = { b with blended := b'.blended, value := b'.value } ∧ (o' = o → b'.blended = b.blended) ∧
      b.value.toInt = Unbounded.damped p (Unbounded.blended p b.choice b.output o.toInt) ∧
      b'.value.toInt = Unbounded.damped { p with halfmoves := clock }
        (Unbounded.blended p b.choice b.output o'.toInt) := by
  obtain ⟨l, m, hl, hvalid, h⟩ := exists_of_evaluateFresh? hp h
  obtain ⟨l', m', hl', hvalid', h'⟩ := exists_of_evaluateFresh? hq h'
  -- a fresh line does not look at the clock
  obtain rfl : l' = l := Option.some.inj (hl'.symm.trans hl)
  obtain ⟨hsame, hblended⟩ := breakdown_of_no_classifier hn h h'
  obtain ⟨-, -, hvalue⟩ := toInt_value he hp.toConsistent hvalid h
  obtain ⟨-, -, hvalue'⟩ := toInt_value he hq.toConsistent hvalid' h'
  have hchoice : b'.choice = b.choice := by rw [hsame]
  have houtput : b'.output = b.output := by rw [hsame]
  rw [hchoice, houtput] at hvalue'
  exact ⟨hsame, hblended, hvalue, hvalue'⟩

theorem exists_evaluateFresh?_of_no_classifier (he : e.config = .default)
    (hn : nets.classifier = none) (hp : p.Sound) (hcheck : p.inCheck? = some false) (o : Int32) :
    ∃ b, e.evaluateFresh? nets p o = some b := by
  have hclassifies : nets.Classifies := fun c hc => by
    rw [hn] at hc
    cases hc
  exact exists_evaluateFresh? (he ▸ EvalConfig.divides_default) hclassifies hp hcheck o

/-- Of two positions that FENs tell and that differ in their clocks only, the one with the later
clock has a value of the same sign that is no larger, and the same value from a hundred half moves
on. All else in the two breakdowns is the same. -/
theorem evaluateFresh?_damped_by_clock {text text' : String} (hp : ofFen text = .ok p)
    (hq : ofFen text' = .ok q) (hpq : q = { p with halfmoves := q.halfmoves })
    (hclock : p.halfmoves ≤ q.halfmoves) (hcheck : p.inCheck? = some false)
    (he : e.config = .default) (hn : nets.classifier = none) (optimism : Int32) :
    q.inCheck? = some false ∧ ∃ b b', e.evaluateFresh? nets p optimism = some b ∧
      e.evaluateFresh? nets q optimism = some b' ∧ b' = { b with value := b'.value } ∧
      (0 ≤ b.value.toInt ∧ 0 ≤ b'.value.toInt ∨ b.value.toInt ≤ 0 ∧ b'.value.toInt ≤ 0) ∧
      |b'.value.toInt| ≤ |b.value.toInt| ∧ (100 ≤ p.halfmoves → b' = b) := by
  have hsound := sound_of_ofFen hp
  have hsound' := sound_of_ofFen hq
  obtain ⟨clock, rfl⟩ : ∃ clock, q = { p with halfmoves := clock } := ⟨_, hpq⟩
  have hcheck' : inCheck? { p with halfmoves := clock } = some false := hcheck
  obtain ⟨b, hb⟩ := exists_evaluateFresh?_of_no_classifier he hn hsound hcheck optimism
  obtain ⟨b', hb'⟩ := exists_evaluateFresh?_of_no_classifier he hn hsound' hcheck' optimism
  obtain ⟨hsame, hblended, hvalue, hvalue'⟩ := values_of_no_classifier he hn hsound hsound' hb hb'
  rw [hblended rfl] at hsame
  have hshrinks := Unbounded.damped_shrinks hclock
    (Unbounded.blended p b.choice b.output optimism.toInt)
  rw [← hvalue, ← hvalue'] at hshrinks
  refine ⟨hcheck', b, b', hb, hb', hsame, by omega, ?_, fun hlate => ?_⟩
  · rcases hshrinks with ⟨hnonneg, hle⟩ | ⟨hle, hnonpos⟩
    · exact abs_le_abs_of_nonneg hnonneg hle
    · exact abs_le_abs_of_nonpos hnonpos hle
  · have heq : b'.value = b.value := Int32.toInt_inj.mp (by
      rw [hvalue, hvalue', Unbounded.damped_eq_of_clock hlate (UInt32.le_trans hlate hclock)])
    rw [hsame, heq]

/-- From a clock of seven half moves to the largest one. -/
theorem evaluateFresh?_damped_by_clock_at_limit :
    ∃ p q, ofFen "r3k2r/p1ppqpb1/bn2pnp1/3PN3/1p2P3/2N2Q1p/PPPBBPPP/R3K2R w KQkq - 7 1" = .ok p ∧
      ofFen "r3k2r/p1ppqpb1/bn2pnp1/3PN3/1p2P3/2N2Q1p/PPPBBPPP/R3K2R w KQkq - 4294967295 1" =
        .ok q ∧ q = { p with halfmoves := q.halfmoves } ∧ p.halfmoves ≤ q.halfmoves ∧
      p.inCheck? = some false ∧ q.inCheck? = some false ∧ ∃ b b',
        default.evaluateFresh? (Networks.synthetic 7) p 25 = some b ∧
        default.evaluateFresh? (Networks.synthetic 7) q 25 = some b' ∧
        b' = { b with value := b'.value } ∧ |b'.value.toInt| ≤ |b.value.toInt| := by
  obtain ⟨p, hp, h⟩ := exists_of_ofFen
    "r3k2r/p1ppqpb1/bn2pnp1/3PN3/1p2P3/2N2Q1p/PPPBBPPP/R3K2R w KQkq - 7 1"
    (fun p => p.inCheck? = some false ∧ p.halfmoves ≤ 4294967295 ∧
      toFen { p with halfmoves := 4294967295 } =
        "r3k2r/p1ppqpb1/bn2pnp1/3PN3/1p2P3/2N2Q1p/PPPBBPPP/R3K2R w KQkq - 4294967295 1")
    (by decide +kernel)
  obtain ⟨hcheck, hclock, htext⟩ := of_decide_eq_true h
  have hsound : Sound { p with halfmoves := 4294967295 } :=
    (sound_of_ofFen hp).of_sameBoard ⟨fun c => by cases c <;> rfl, rfl⟩
  have hhash : p.hash = p.hashOf := hash_of_ofFen hp
  have hq := hsound.ofFen_toFen hhash
  rw [htext] at hq
  have hn : (Networks.synthetic 7).classifier = none := rfl
  obtain ⟨hcheck', b, b', hb, hb', hsame, -, hle, -⟩ :=
    evaluateFresh?_damped_by_clock hp hq rfl hclock hcheck (e := default) rfl hn 25
  exact ⟨p, _, hp, hq, rfl, hclock, hcheck, hcheck', b, b', hb, hb', hsame, hle⟩

/-- More optimism never lowers the value of a position that a FEN tells, whatever the networks
answer, and changes nothing in front of the blend. -/
theorem evaluateFresh?_mono_optimism {text : String} (hp : ofFen text = .ok p)
    (hcheck : p.inCheck? = some false) (he : e.config = .default) (hn : nets.classifier = none)
    (ho : o ≤ o') :
    ∃ b b', e.evaluateFresh? nets p o = some b ∧ e.evaluateFresh? nets p o' = some b' ∧
      b' = { b with blended := b'.blended, value := b'.value } ∧ b.value ≤ b'.value := by
  have hsound := sound_of_ofFen hp
  obtain ⟨b, hb⟩ := exists_evaluateFresh?_of_no_classifier he hn hsound hcheck o
  obtain ⟨b', hb'⟩ := exists_evaluateFresh?_of_no_classifier he hn hsound hcheck o'
  have hsound' : Sound { p with halfmoves := p.halfmoves } := hsound
  obtain ⟨hsame, -, hvalue, hvalue'⟩ := values_of_no_classifier he hn hsound hsound' hb hb'
  refine ⟨b, b', hb, hb', hsame, ?_⟩
  rw [Int32.le_iff_toInt_le] at ho ⊢
  rw [hvalue, hvalue']
  exact Unbounded.damped_mono (Unbounded.blended_mono hsound.toConsistent _ _ ho)

/-- The most queens that a board may hold, from the least optimism to the largest. -/
theorem evaluateFresh?_mono_optimism_queens :
    ∃ p, ofFen
        "KQQQQQQQ/QQQQQQQQ/QQQQQQQQ/QQQQQQQQ/qqqqqqqq/qqqqqqqq/qqqqqqqq/qqqqqqqk w - - 0 1" = .ok p ∧
      p.inCheck? = some false ∧ ∃ b b',
        default.evaluateFresh? (Networks.synthetic 7) p (-2147483648) = some b ∧
        default.evaluateFresh? (Networks.synthetic 7) p 2147483647 = some b' ∧
        b.value ≤ b'.value := by
  obtain ⟨p, hp, hcheck⟩ := exists_of_ofFen
    "KQQQQQQQ/QQQQQQQQ/QQQQQQQQ/QQQQQQQQ/qqqqqqqq/qqqqqqqq/qqqqqqqq/qqqqqqqk w - - 0 1"
    (fun p => p.inCheck? == some false) (by decide +kernel)
  have hcheck : p.inCheck? = some false := by simpa using hcheck
  have hn : (Networks.synthetic 7).classifier = none := rfl
  have ho : (-2147483648 : Int32) ≤ 2147483647 := by decide
  obtain ⟨b, b', hb, hb', -, hle⟩ :=
    evaluateFresh?_mono_optimism hp hcheck (e := default) rfl hn ho
  exact ⟨p, hp, hcheck, b, b', hb, hb', hle⟩

end Evaluator

end ChessEval
