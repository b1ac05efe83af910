import ChessEval.Proofs.Board.Reading
import ChessEval.Proofs.Evaluate.Alike
import ChessEval.Proofs.Evaluate.Checked
import ChessEval.Proofs.Evaluate.ExactMaterial

/-! With the tuned numbers no operation of the evaluation overflows, and its value is the one of the
same formula over whole numbers. -/
namespace ChessEval

open Checked

variable {p : Position} {e : Evaluator} {o : NetworkOutput} {material optimism : Int32}

namespace Unbounded

/-- A network's two terms weighed against each other by the material left. -/
def score (material : Int) (o : NetworkOutput) : Int :=
  let delta := 24 - material.tdiv 9560
  ((1024 - delta) * o.psqt.toInt + (1024 + delta) * o.positional.toInt).tdiv 16384

def complexity (o : NetworkOutput) : Int := |o.psqt.toInt - o.positional.toInt|.tdiv 16

def weight : NetworkChoice → Int
  | .small => 773
  | _ => 882

/-- The blend of a score, its complexity and the optimism. -/
def blend (p : Position) (choice : NetworkChoice) (score complexity optimism : Int) : Int :=
  let spread := complexity + |materialBalance p p.turn - score|
  let optimism := optimism + (optimism * spread).tdiv 512
  let score := score - (score * spread).tdiv 32768
  let material := (nonPawnMaterialTotal p).tdiv 64
  (score * (weight choice + material + 9 * p.countBoth .pawn) + optimism * (106 + material)).tdiv 1024

/-- The value before damping. -/
def blended (p : Position) (choice : NetworkChoice) (o : NetworkOutput) (optimism : Int) : Int :=
  match choice with
  | .lazily => materialBalance p p.turn
  | _ => blend p choice (score (nonPawnMaterialTotal p) o) (complexity o) optimism

/-- The value damped by the clock and kept within the limits. -/
def damped (p : Position) (v : Int) : Int :=
  max (-31506) (min 31506 ((v * (200 - min (p.halfmoves.toNat : Int) 100)).tdiv 214))

/-- The clock takes at most half of a value, so a large one ends at the limit. -/
theorem damped_of_ge {v : Int} (h : 67423 ≤ v) : damped p v = 31506 := by
  have hfactor : 100 ≤ 200 - min (p.halfmoves.toNat : Int) 100 := by omega
  have hproduct : 67423 * 100 ≤ v * (200 - min (p.halfmoves.toNat : Int) 100) :=
    mul_le_mul h hfactor (by decide) (by omega)
  have hquotient : 31506 ≤ (v * (200 - min (p.halfmoves.toNat : Int) 100)).tdiv 214 :=
    Int.tdiv_le_tdiv (c := 214) (by decide) hproduct
  rw [damped, min_eq_left hquotient]
  decide

theorem damped_neg (v : Int) : damped p (-v) = -damped p v := by
  rw [damped, damped, neg_mul, Int.neg_tdiv]
  omega

/-- Cutting a value to 32 bits does not show behind the damping. -/
theorem damped_saturated (p : Position) (v : Int) :
    damped p (max (-2147483648) (min 2147483647 v)) = damped p v := by
  -- a value that is cut is so large that the damped one is at the limit, cut or not
  rcases le_total v (-67423) with hv | hv
  · have hlow : damped p v = -31506 := by
      rw [← neg_neg v, damped_neg, damped_of_ge (by omega)]
    have hcut : damped p (max (-2147483648) (min 2147483647 v)) = -31506 := by
      rw [← neg_neg (max _ _), damped_neg, damped_of_ge (by omega)]
    rw [hlow, hcut]
  · rcases le_total 67423 v with hv' | hv'
    · rw [damped_of_ge hv', damped_of_ge (by omega)]
    · rw [show max (-2147483648) (min 2147483647 v) = v by omega]

end Unbounded

namespace Checked

theorem Exact.saturate {v : Int64} {n A : Int} (h : Exact v.toInt n A) (hA : A ≤ 2147483647) :
    Exact (Kernel.saturate v).toInt n A := by
  obtain ⟨hle, hge⟩ := abs_le.mp h.le
  refine ⟨?_, h.le⟩
  rw [Kernel.toInt_saturate, h.eq]
  omega

/-- Both terms of a network, however large, are weighed without overflow. The bound of the score is
that of two terms of 32 bits with weights of at most 1024 + 41. -/
theorem scored_eq {m : Int} (hm : Exact material.toInt m 171648) (o : NetworkOutput) :
    Checked.scored o material = .ok (o.scored material) ∧
      Exact (o.scored material).score.toInt (Unbounded.score m o) 279183360 ∧
        Exact (o.scored material).complexity.toInt (Unbounded.complexity o) 268435456 := by
  have psqt := (Exact.ofInt32 o.psqt).toInt64
  have positional := (Exact.ofInt32 o.positional).toInt64
  have unit : Exact (1024 : Int64).toInt 1024 1024 := .of_eq (by decide) (by decide)
  have top : Exact (24 : Int32).toInt 24 24 := .of_eq (by decide) (by decide)
  obtain ⟨hshare, share⟩ := hm.div32_eq (y := 9560) (d := 9560) (by decide) (by decide) (by decide)
  obtain ⟨hdelta, delta⟩ := top.sub32_eq share (by decide)
  obtain ⟨hless, less⟩ := unit.sub_eq delta.toInt64 (by decide)
  obtain ⟨hours, ours⟩ := less.mul_eq psqt (by decide)
  obtain ⟨hmore, more⟩ := unit.add_eq delta.toInt64 (by decide)
  obtain ⟨htheirs, theirs⟩ := more.mul_eq positional (by decide)
  obtain ⟨hsum, sum⟩ := ours.add_eq theirs (by decide)
  obtain ⟨hscore, score⟩ :=
    sum.div_eq (b := 16384) (d := 16384) (by decide) (by decide) (by decide)
  obtain ⟨hgap, gap⟩ := psqt.sub_eq positional (by decide)
  obtain ⟨hsize, size⟩ := gap.abs_eq (by decide)
  obtain ⟨hcomplexity, complexity⟩ :=
    size.div_eq (b := 16) (d := 16) (by decide) (by decide) (by decide)
  refine ⟨?_, score.saturate (by decide), complexity.saturate (by decide)⟩
  simp only [Checked.scored, hshare, hdelta, hless, hours, hmore, htheirs, hsum, hscore, hgap,
    hsize, hcomplexity, bind, Except.bind, pure, Except.pure]
  rfl

theorem exact_material (hp : p.Consistent) :
    Exact p.nonPawnMaterialTotal.toInt (Unbounded.nonPawnMaterialTotal p) 171648 := by
  obtain ⟨hle, hge⟩ := hp.nonPawnMaterialTotal_bounds
  exact ⟨hp.toInt_nonPawnMaterialTotal, abs_le.mpr ⟨by omega, hge⟩⟩

theorem exact_balance (hp : p.Consistent) (c : Color) :
    Exact (p.materialBalance c).toInt (Unbounded.materialBalance p c) 171648 :=
  ⟨hp.toInt_materialBalance c, hp.abs_materialBalance_le c⟩

theorem exact_pawns (hp : p.Consistent) :
    Exact (Int64.ofNat (p.countBoth .pawn)).toInt (p.countBoth .pawn) 64 := by
  have h := hp.counts_le .white
  have hle : p.countBoth .pawn ≤ 64 := by
    rw [Position.countBoth]
    simp only [Color.opponent] at h
    omega
  exact ⟨Int64.toInt_ofNat_of_lt (by omega), by rw [abs_le]; omega⟩

theorem spread_eq (hp : p.Consistent) {s : Scored} {n k : Int}
    (hn : Exact s.score.toInt n 279183360) (hk : Exact s.complexity.toInt k 268435456) :
    ∃ x, Checked.spread p s = .ok x ∧ x = s.complexity.toInt64 +
        ((p.materialBalance p.turn).toInt64 - s.score.toInt64).abs ∧
      Exact x.toInt (k + |Unbounded.materialBalance p p.turn - n|) 547790464 := by
  obtain ⟨hgap, gap⟩ := (exact_balance hp p.turn).toInt64.sub_eq hn.toInt64 (by decide)
  obtain ⟨hsize, size⟩ := gap.abs_eq (by decide)
  obtain ⟨hspread, spread⟩ := hk.toInt64.add_eq size (by decide)
  refine ⟨_, ?_, rfl, spread⟩
  simp only [Checked.spread, hgap, hsize, hspread, bind, Except.bind]

/-- The products with the spread stay far within their words, so the score loses and the optimism
gains what they should. -/
theorem adjusted_eq (he : e.config = .default) {a b x : Int64} {n o s : Int}
    (hn : Exact a.toInt n 279183360) (ho : Exact b.toInt o 2147483648)
    (hs : Exact x.toInt s 547790464) :
    ∃ y z, Checked.adjusted e a b x = .ok (a - y, b + z) ∧
      Kernel.quotient? (a * x) e.config.scoreDivisor.toInt64 = some y ∧
      Kernel.quotient? (b * x) e.config.optimismDivisor.toInt64 = some z ∧
      Exact (a - y).toInt (n - (n * s).tdiv 32768) 4667453936640 ∧
      Exact (b + z).toInt (o + (o * s).tdiv 512) 2297601881800704 := by
  obtain ⟨hrise, rise⟩ := ho.mul_eq hs (by decide)
  obtain ⟨hshare, share⟩ :=
    rise.div_eq (b := e.config.optimismDivisor.toInt64) (d := 512) (by rw [he]; decide) (by decide)
      (by decide)
  obtain ⟨hraised, raised⟩ := ho.add_eq share (by decide)
  obtain ⟨hfall, fall⟩ := hn.mul_eq hs (by decide)
  obtain ⟨hloss, loss⟩ :=
    fall.div_eq (b := e.config.scoreDivisor.toInt64) (d := 32768) (by rw [he]; decide) (by decide)
      (by decide)
  obtain ⟨hreduced, reduced⟩ := hn.sub_eq loss (by decide)
  refine ⟨_, _, ?_, quotient?_of_div hloss, quotient?_of_div hshare, reduced, raised⟩
  simp only [Checked.adjusted, hrise, hshare, hraised, hfall, hloss, hreduced, bind, Except.bind,
    pure, Except.pure]

theorem weighed_eq (he : e.config = .default) (hp : p.Consistent) (choice : NetworkChoice)
    {a b : Int64} {n o : Int} (hn : Exact a.toInt n 4667453936640)
    (ho : Exact b.toInt o 2297601881800704) :
    ∃ w, Checked.weighed e p choice a b = .ok w ∧
      w = (a * (netWeight e choice + (p.nonPawnMaterialTotal / 64).toInt64 +
          e.config.pawnWeight.toInt64 * Int64.ofNat (p.countBoth .pawn)) +
        b * (e.config.optimismBase.toInt64 + (p.nonPawnMaterialTotal / 64).toInt64)) / 1024 ∧
      w.toInt = (n * (Unbounded.weight choice + (Unbounded.nonPawnMaterialTotal p).tdiv 64 +
          9 * p.countBoth .pawn) +
        o * (106 + (Unbounded.nonPawnMaterialTotal p).tdiv 64)).tdiv 1024 := by
  obtain ⟨hmaterial, material⟩ :=
    (exact_material hp).div32_eq (y := 64) (d := 64) (by decide) (by decide) (by decide)
  have net : Exact (netWeight e choice).toInt (Unbounded.weight choice) 882 := by
    cases choice <;> simp only [netWeight, he] <;> exact ⟨by decide, by decide⟩
  have pawnWeight : Exact e.config.pawnWeight.toInt64.toInt 9 9 :=
    .of_eq (by rw [he]; decide) (by decide)
  have optimismBase : Exact e.config.optimismBase.toInt64.toInt 106 106 :=
    .of_eq (by rw [he]; decide) (by decide)
  obtain ⟨hheavy, heavy⟩ := net.add_eq material.toInt64 (by decide)
  obtain ⟨hpawns, pawns⟩ := pawnWeight.mul_eq (exact_pawns hp) (by decide)
  obtain ⟨hweight, weight⟩ := heavy.add_eq pawns (by decide)
  obtain ⟨hbase, base⟩ := optimismBase.add_eq material.toInt64 (by decide)
  obtain ⟨hfirst, first⟩ := hn.mul_eq weight (by decide)
  obtain ⟨hsecond, second⟩ := ho.mul_eq base (by decide)
  -- the tightest step: with 62 queens the two products may come to seven tenths of the range
  obtain ⟨hsum, sum⟩ := first.add_eq second (by decide)
  obtain ⟨hquotient, quotient⟩ :=
    sum.div_eq (b := 1024) (d := 1024) (by decide) (by decide) (by decide)
  refine ⟨_, ?_, rfl, quotient.eq⟩
  simp only [Checked.weighed, hmaterial, hheavy, hpawns, hweight, hbase, hfirst, hsecond, hsum,
    hquotient, bind, Except.bind]

/-- A score and a complexity as networks give them are blended with any optimism. -/
theorem blend_eq (he : e.config = .default) (hp : p.Consistent) {c : Consultation} {n k : Int}
    (hn : Exact c.scored.score.toInt n 279183360)
    (hk : Exact c.scored.complexity.toInt k 268435456) (optimism : Int32) :
    ∃ v w, Checked.blend e p c optimism = .ok (v, w) ∧ e.blend? p c optimism = some (v, w) ∧
      w.toInt = Unbounded.blend p c.choice n k optimism.toInt := by
  obtain ⟨x, hspread, rfl, spread⟩ := spread_eq hp hn hk
  obtain ⟨y, z, hadjusted, hy, hz, reduced, raised⟩ :=
    adjusted_eq he hn.toInt64 (Exact.ofInt32 optimism).toInt64 spread
  obtain ⟨w, hweighed, rfl, weighed⟩ := weighed_eq he hp c.choice reduced raised
  refine ⟨c.scored.score.toInt64 - y, _, ?_, ?_, weighed⟩
  · simp only [Checked.blend, hspread, hadjusted, hweighed, bind, Except.bind, pure, Except.pure]
  · simp only [Evaluator.blend?, hy, hz, Option.bind_eq_bind, Option.bind_some, Option.pure_def]
    rfl

theorem exact_shuffle (he : e.config = .default) (p : Position) :
    Exact (if e.config.dampingCap.toInt64 < Int64.ofNat p.halfmoves.toNat
      then e.config.dampingCap.toInt64 else Int64.ofNat p.halfmoves.toNat).toInt
      (min p.halfmoves.toNat 100) 100 := by
  have hcap : e.config.dampingCap.toInt64.toInt = 100 := by
    rw [he]
    decide
  have hclock : (Int64.ofNat p.halfmoves.toNat).toInt = p.halfmoves.toNat :=
    Int64.toInt_ofNat_of_lt (by have := p.halfmoves.toNat_lt; omega)
  constructor
  · split
    · next h =>
      rw [Int64.lt_iff_toInt_lt] at h
      omega
    · next h =>
      rw [Int64.lt_iff_toInt_lt] at h
      omega
  · rw [abs_le]
    omega

/-- A value kept within the limits, whatever it was cut to before. -/
theorem toInt_limited {v : Int32} {n : Int} (hv : v.toInt = max (-2147483648) (min 2147483647 n)) :
    (if v < -evalLimit then -evalLimit else if evalLimit < v then evalLimit else v).toInt =
      max (-31506) (min 31506 n) := by
  have hlow : (-evalLimit).toInt = -31506 := by decide
  have hhigh : evalLimit.toInt = 31506 := by decide
  simp only [Int32.lt_iff_toInt_lt]
  split_ifs <;> omega

theorem damp_eq (he : e.config = .default) (p : Position) (b : Int32) :
    ∃ v, Checked.damp e p b = .ok v ∧ e.damp? p b = some v ∧
      v.toInt = Unbounded.damped p b.toInt := by
  have base : Exact e.config.dampingBase.toInt64.toInt 200 200 :=
    .of_eq (by rw [he]; decide) (by decide)
  obtain ⟨hfactor, factor⟩ := base.sub_eq (exact_shuffle he p) (by decide)
  obtain ⟨hproduct, product⟩ := (Exact.ofInt32 b).toInt64.mul_eq factor (by decide)
  obtain ⟨hdamped, damped⟩ :=
    product.div_eq (b := e.config.dampingDivisor.toInt64) (d := 214) (by rw [he]; decide) (by decide)
      (by decide)
  refine ⟨_, ?_, ?_, toInt_limited ((Kernel.toInt_saturate _).trans (by rw [damped.eq]))⟩
  · simp only [Checked.damp, hfactor, hproduct, hdamped, bind, Except.bind, pure, Except.pure]
  · simp only [Evaluator.damp?, quotient?_of_div hdamped, Option.bind_eq_bind, Option.bind_some,
      Option.pure_def]

/-- Which network is chosen is found without overflow. -/
theorem consult_eq (hp : p.Consistent) (e : Evaluator) (nets : Networks) (l : Line)
    (optimism : Int32) :
    Checked.consult e nets p l optimism = ofOption (e.consult? nets p l optimism) := by
  -- the scores are checked for every answer, since which network answers is found on the way
  have hscored := scored_eq (exact_material hp)
  have hbalance := ((exact_balance hp p.turn).abs32_eq (by decide)).1
  have hscore (o : NetworkOutput) := ((hscored o).2.1.abs32_eq (by decide)).1
  simp only [Checked.consult, Evaluator.consult?, hbalance, (hscored _).1, hscore, bind, Except.bind,
    pure, Except.pure]
  split
  · cases Evaluator.runSmall? nets p l with
    | none => rfl
    | some x =>
      simp only [ofOption, Option.bind_some]
      split
      · cases e.recheck? nets
          (e.classifierInputs p x.1 (x.1.scored p.nonPawnMaterialTotal).complexity optimism) with
        | none => rfl
        | some r =>
          simp only [Option.bind_some]
          split
          · cases Evaluator.runBig? nets p x.2 <;> rfl
          · rfl
      · rfl
  · cases Evaluator.runBig? nets p l <;> rfl

end Checked

/-- What the networks may answer on a position: nothing, or what the small or the big one gives for
the sums of the position computed from scratch. -/
inductive Networks.Answers (nets : Networks) (p : Position) : NetworkChoice → NetworkOutput → Prop
  | lazily : Answers nets p .lazily ⟨0, 0⟩
  | small (a : SmallAccumulator) :
    (∀ view, nets.small.transformer.refresh? p view = some (a.half view).sums) →
    Answers nets p .small (nets.small.evaluate a p.turn)
  | big (a : BigAccumulator) :
    (∀ view, nets.big.transformer.refresh? p view = some (a.half view).sums) →
    Answers nets p .big (nets.big.evaluate a p.turn p.pieceCount)

namespace Evaluator

variable {nets : Networks} {l l' : Line} {ps : List Position} {c : Consultation} {b : Breakdown}

theorem answers_of_runSmall? (hl : l.Valid nets (p :: ps)) (h : runSmall? nets p l = some (o, l')) :
    nets.Answers p .small o ∧ l'.Valid nets (p :: ps) := by
  obtain ⟨a, m, ha, hm, hsums⟩ := hl.smallAccumulator?
  rw [runSmall?, ha, Option.map_some, Option.some.injEq, Prod.mk.injEq] at h
  obtain ⟨rfl, rfl⟩ := h
  exact ⟨.small a fun view => (hsums view).2, hm⟩

theorem answers_of_runBig? (hl : l.Valid nets (p :: ps)) (h : runBig? nets p l = some (o, l')) :
    nets.Answers p .big o := by
  obtain ⟨a, m, ha, -, hsums⟩ := hl.bigAccumulator?
  rw [runBig?, ha, Option.map_some, Option.some.injEq, Prod.mk.injEq] at h
  obtain ⟨rfl, rfl⟩ := h
  exact .big a fun view => (hsums view).2

/-- A consultation holds the answer of the network that it names, and that answer's score. -/
theorem answers_of_consult? (hl : l.Valid nets (p :: ps))
    (h : e.consult? nets p l optimism = some (c, l')) :
    nets.Answers p c.choice c.output ∧ c.choice ≠ .lazily ∧
      c.scored = c.output.scored p.nonPawnMaterialTotal := by
  simp only [consult?, Option.bind_eq_bind, Option.pure_def] at h
  split at h
  · obtain ⟨⟨o, m⟩, ho, h⟩ := Option.bind_eq_some_iff.mp h
    obtain ⟨hsmall, hm⟩ := answers_of_runSmall? hl ho
    split at h
    · obtain ⟨⟨again, q⟩, -, h⟩ := Option.bind_eq_some_iff.mp h
      split at h
      · obtain ⟨⟨o, m'⟩, ho, h⟩ := Option.bind_eq_some_iff.mp h
        obtain ⟨rfl, rfl⟩ := Prod.mk.inj (Option.some.inj h)
        exact ⟨answers_of_runBig? hm ho, by simp, rfl⟩
      · obtain ⟨rfl, rfl⟩ := Prod.mk.inj (Option.some.inj h)
        exact ⟨hsmall, by simp, rfl⟩
    · obtain ⟨rfl, rfl⟩ := Prod.mk.inj (Option.some.inj h)
      exact ⟨hsmall, by simp, rfl⟩
  · obtain ⟨⟨o, m⟩, ho, h⟩ := Option.bind_eq_some_iff.mp h
    obtain ⟨rfl, rfl⟩ := Prod.mk.inj (Option.some.inj h)
    exact ⟨answers_of_runBig? hl ho, by simp, rfl⟩

theorem lazily_iff (he : e.config = .default) (hp : p.Consistent) :
    e.config.lazyThreshold < (p.materialBalance p.turn).abs ↔
      2550 < |Unbounded.materialBalance p p.turn| := by
  have habs := ((exact_balance hp p.turn).abs32_eq (by decide)).2.eq
  rw [Int32.lt_iff_toInt_lt, habs, he]
  rfl

theorem exists_blend_eq (he : e.config = .default) (hp : p.Consistent)
    (hc : c.choice ≠ .lazily ∧ c.scored = c.output.scored p.nonPawnMaterialTotal)
    (optimism : Int32) :
    ∃ v w, Checked.blend e p c optimism = .ok (v, w) ∧ e.blend? p c optimism = some (v, w) ∧
      w.toInt = Unbounded.blended p c.choice c.output optimism.toInt := by
  obtain ⟨hchoice, hscored⟩ := hc
  obtain ⟨-, hn, hk⟩ := scored_eq (exact_material hp) c.output
  rw [← hscored] at hn hk
  obtain ⟨v, w, hv, hw, hvalue⟩ := blend_eq he hp hn hk optimism
  refine ⟨v, w, hv, hw, hvalue.trans ?_⟩
  cases hc : c.choice with
  | lazily => exact (hchoice hc).elim
  | small => rfl
  | big => rfl

/-- The checked run never stops at an overflow: it does what the evaluation does. -/
theorem checked_evaluate_eq (he : e.config = .default) (hp : p.Consistent)
    (hl : l.Valid nets (p :: ps)) (optimism : Int32) :
    Checked.evaluate e nets p l optimism = ofOption (e.evaluate? nets p l optimism) := by
  have hbalance := ((exact_balance hp p.turn).abs32_eq (by decide)).1
  rw [Checked.evaluate, Evaluator.evaluate?]
  cases p.inCheck? with
  | none => rfl
  | some check =>
    cases check with
    | true => rfl
    | false =>
      simp only [ofOption, hbalance, consult_eq hp, bind, Except.bind, pure, Except.pure,
        Option.bind_some, Bool.false_eq_true, if_false]
      split
      · obtain ⟨v, hv, hv', -⟩ := damp_eq he p (p.materialBalance p.turn)
        simp only [hv, hv', Option.bind_some]
      · cases hc : e.consult? nets p l optimism with
        | none => rfl
        | some x =>
          obtain ⟨c, l'⟩ := x
          obtain ⟨score, w, hw, hw', -⟩ :=
            exists_blend_eq he hp (answers_of_consult? hl hc).2 optimism
          obtain ⟨v, hv, hv', -⟩ := damp_eq he p (Kernel.saturate w)
          simp only [hw, hw', hv, hv', Option.bind_some]

/-- What an evaluation reports: the material alone, or what the networks answered. -/
theorem evaluate?_cases (h : e.evaluate? nets p l optimism = some (b, l')) :
    (e.config.lazyThreshold < (p.materialBalance p.turn).abs ∧ ∃ v,
      e.damp? p (p.materialBalance p.turn) = some v ∧
        b = ⟨p.materialBalance p.turn, .lazily, false, none, ⟨0, 0⟩, 0, 0,
          p.materialBalance p.turn, v⟩) ∨
    (¬ e.config.lazyThreshold < (p.materialBalance p.turn).abs ∧ ∃ c s x v,
      e.consult? nets p l optimism = some (c, l') ∧ e.blend? p c optimism = some (s, x) ∧
        e.damp? p (Kernel.saturate x) = some v ∧
        b = ⟨p.materialBalance p.turn, c.choice, c.rechecked, c.probability, c.output,
          Kernel.saturate s, c.scored.complexity, Kernel.saturate x, v⟩) := by
  simp only [evaluate?, Option.bind_eq_bind, Option.pure_def] at h
  obtain ⟨check, -, h⟩ := Option.bind_eq_some_iff.mp h
  split at h
  · cases h
  · split at h
    · next hlazily =>
      obtain ⟨v, hv, h⟩ := Option.bind_eq_some_iff.mp h
      obtain ⟨rfl, -⟩ := Prod.mk.inj (Option.some.inj h)
      exact .inl ⟨hlazily, v, hv, rfl⟩
    · next hlazily =>
      obtain ⟨⟨c, m⟩, hconsult, h⟩ := Option.bind_eq_some_iff.mp h
      obtain ⟨⟨s, x⟩, hblend, h⟩ := Option.bind_eq_some_iff.mp h
      obtain ⟨v, hv, h⟩ := Option.bind_eq_some_iff.mp h
      obtain ⟨rfl, rfl⟩ := Prod.mk.inj (Option.some.inj h)
      exact .inr ⟨hlazily, c, s, x, v, hconsult, hblend, hv, rfl⟩

/-- The value is that of the unbounded formula on the network's answer. -/
theorem toInt_value (he : e.config = .default) (hp : p.Consistent) (hl : l.Valid nets (p :: ps))
    (h : e.evaluate? nets p l optimism = some (b, l')) :
    (b.choice = .lazily ↔ 2550 < |Unbounded.materialBalance p p.turn|) ∧
      nets.Answers p b.choice b.output ∧ b.value.toInt =
        Unbounded.damped p (Unbounded.blended p b.choice b.output optimism.toInt) := by
  rw [← lazily_iff he hp]
  rcases evaluate?_cases h with ⟨hlazily, v, hv, rfl⟩ | ⟨hlazily, c, s, x, v, hc, hx, hv, rfl⟩
  · obtain ⟨w, -, hw, hvalue⟩ := damp_eq he p (p.materialBalance p.turn)
    obtain rfl : v = w := Option.some.inj (hv.symm.trans hw)
    refine ⟨iff_of_true rfl hlazily, .lazily, ?_⟩
    rw [hvalue, hp.toInt_materialBalance]
    rfl
  · obtain ⟨hanswers, hconsult⟩ := answers_of_consult? hl hc
    obtain ⟨score, y, -, hy, hblended⟩ := exists_blend_eq he hp hconsult optimism
    obtain ⟨-, rfl⟩ := Prod.mk.inj (Option.some.inj (hx.symm.trans hy))
    obtain ⟨w, -, hw, hvalue⟩ := damp_eq he p (Kernel.saturate x)
    obtain rfl : v = w := Option.some.inj (hv.symm.trans hw)
    refine ⟨iff_of_false hconsult.1 hlazily, hanswers, ?_⟩
    rw [hvalue, Kernel.toInt_saturate, Unbounded.damped_saturated, hblended]

/-- With the tuned numbers, on a position that a FEN tells, no operation of the evaluation overflows,
whatever the networks answer and the optimism is, and the value is that of the same formula over
whole numbers. Out of check there is one, but for a classifier without hidden numbers. -/
theorem evaluate?_unbounded {text : String} (hfen : Position.ofFen text = .ok p)
    (hcheck : p.inCheck? = some false) (he : e.config = .default) (nets : Networks)
    (optimism : Int32) :
    (∃ l, Line.start? nets p = some l ∧ l.Valid nets [p]) ∧
      ∀ ps l, l.Valid nets (p :: ps) →
        Checked.evaluate e nets p l optimism = ofOption (e.evaluate? nets p l optimism) ∧
        (nets.Classifies → ∃ b l', e.evaluate? nets p l optimism = some (b, l')) ∧
        ∀ b l', e.evaluate? nets p l optimism = some (b, l') →
          (b.choice = .lazily ↔ 2550 < |Unbounded.materialBalance p p.turn|) ∧
            nets.Answers p b.choice b.output ∧ b.value.toInt =
              Unbounded.damped p (Unbounded.blended p b.choice b.output optimism.toInt) := by
  have hp := Position.sound_of_ofFen hfen
  refine ⟨Line.exists_start? hp nets, fun ps l hl => ⟨?_, fun hn => ?_, fun b l' h => ?_⟩⟩
  · exact checked_evaluate_eq he hp.toConsistent hl optimism
  · exact exists_evaluate? (he ▸ EvalConfig.divides_default) hn hl hcheck optimism
  · exact toInt_value he hp.toConsistent hl h

/-- The most queens that a board may hold, at the least optimism and a clock beyond the damping. -/
theorem evaluate?_unbounded_queens :
    ∃ p l b l', Position.ofFen
        "KQQQQQQQ/QQQQQQQQ/QQQQQQQQ/QQQQQQQQ/qqqqqqqq/qqqqqqqq/qqqqqqqq/qqqqqqqk w - - 777 1" = .ok p ∧
      p.inCheck? = some false ∧ l.Valid (Networks.synthetic 7) [p] ∧
      default.evaluate? (Networks.synthetic 7) p l (-2147483648) = some (b, l') ∧
      Checked.evaluate default (Networks.synthetic 7) p l (-2147483648) = .ok (b, l') ∧
      b.value.toInt =
        Unbounded.damped p (Unbounded.blended p b.choice b.output (-2147483648)) := by
  obtain ⟨p, hp, hc⟩ := Position.exists_of_ofFen
    "KQQQQQQQ/QQQQQQQQ/QQQQQQQQ/QQQQQQQQ/qqqqqqqq/qqqqqqqq/qqqqqqqq/qqqqqqqk w - - 777 1"
    (fun p => p.inCheck? == some false) (by decide +kernel)
  have hc : p.inCheck? = some false := by simpa using hc
  obtain ⟨⟨l, -, hl⟩, hline⟩ :=
    evaluate?_unbounded hp hc (e := default) rfl (Networks.synthetic 7) (-2147483648)
  obtain ⟨hchecked, hsome, hvalue⟩ := hline [] l hl
  obtain ⟨b, l', hb⟩ := hsome fun c hc => by cases hc
  rw [hb] at hchecked
  exact ⟨p, l, b, l', hp, hc, hl, hb, hchecked, (hvalue b l' hb).2.2⟩

end Evaluator

end ChessEval
