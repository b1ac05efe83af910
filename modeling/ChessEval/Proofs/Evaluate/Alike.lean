import ChessEval.Evaluate.Blend
import ChessEval.Proofs.Network.Courses

/-! Positions that look alike to the side to move are evaluated alike, and evaluation gives a result
out of check. -/
namespace ChessEval

variable {p q : Position} {nets : Networks} {l l' : Line} {ps qs : List Position} {e : Evaluator}
  {optimism : Int32}

/-- Positions with the same material and the same sums of the side to move and its opponent. -/
structure Alike (p q : Position) : Prop where
  inCheck : q.inCheck? = p.inCheck?
  balance : q.materialBalance q.turn = p.materialBalance p.turn
  nonPawn : q.nonPawnMaterialTotal = p.nonPawnMaterialTotal
  countBoth : ∀ k, q.countBoth k = p.countBoth k
  pieceCount : q.pieceCount = p.pieceCount
  halfmoves : q.halfmoves = p.halfmoves
  ours : ∀ {F : FeatureSet} {width buckets : Nat} (t : Transformer F width buckets),
    t.refresh? q q.turn = t.refresh? p p.turn
  theirs : ∀ {F : FeatureSet} {width buckets : Nat} (t : Transformer F width buckets),
    t.refresh? q q.turn.opponent = t.refresh? p p.turn.opponent

/-- Positions that the classifier, if there is one, scores alike. -/
def ScoredAlike (nets : Networks) (p q : Position) : Prop :=
  nets.classifier = none ∨ q.pieceSquareScore = p.pieceSquareScore

namespace Alike

variable (h : Alike p q)

include h

theorem runBig? (hl : l.Valid nets (p :: ps)) (hl' : l'.Valid nets (q :: qs)) :
    ∃ o m m', Evaluator.runBig? nets p l = some (o, m) ∧
      Evaluator.runBig? nets q l' = some (o, m') := by
  obtain ⟨a, m, ha, -, hsums⟩ := hl.bigAccumulator?
  obtain ⟨a', m', ha', -, hsums'⟩ := hl'.bigAccumulator?
  have hours := Option.some.inj
    ((hsums' q.turn).2.symm.trans ((h.ours nets.big.transformer).trans (hsums p.turn).2))
  have htheirs := Option.some.inj ((hsums' q.turn.opponent).2.symm.trans
    ((h.theirs nets.big.transformer).trans (hsums p.turn.opponent).2))
  have houtput : nets.big.evaluate a' q.turn q.pieceCount =
      nets.big.evaluate a p.turn p.pieceCount := by
    simp only [BigNetwork.evaluate, hours, htheirs, h.pieceCount]
  refine ⟨nets.big.evaluate a p.turn p.pieceCount, m, m', ?_, ?_⟩
  · simp only [Evaluator.runBig?, ha, Option.map_some]
  · simp only [Evaluator.runBig?, ha', Option.map_some, houtput]

theorem runSmall? (hl : l.Valid nets (p :: ps)) (hl' : l'.Valid nets (q :: qs)) :
    ∃ o m m', Evaluator.runSmall? nets p l = some (o, m) ∧
      Evaluator.runSmall? nets q l' = some (o, m') ∧ m.Valid nets (p :: ps) ∧
      m'.Valid nets (q :: qs) := by
  obtain ⟨a, m, ha, hm, hsums⟩ := hl.smallAccumulator?
  obtain ⟨a', m', ha', hm', hsums'⟩ := hl'.smallAccumulator?
  have hours := Option.some.inj
    ((hsums' q.turn).2.symm.trans ((h.ours nets.small.transformer).trans (hsums p.turn).2))
  have htheirs := Option.some.inj ((hsums' q.turn.opponent).2.symm.trans
    ((h.theirs nets.small.transformer).trans (hsums p.turn.opponent).2))
  have houtput : nets.small.evaluate a' q.turn = nets.small.evaluate a p.turn := by
    simp only [SmallNetwork.evaluate, hours, htheirs]
  refine ⟨nets.small.evaluate a p.turn, m, m', ?_, ?_, hm, hm'⟩
  · simp only [Evaluator.runSmall?, ha, Option.map_some]
  · simp only [Evaluator.runSmall?, ha', Option.map_some, houtput]

theorem classifierInputs (hs : q.pieceSquareScore = p.pieceSquareScore) (e : Evaluator)
    (o : NetworkOutput) (complexity optimism : Int32) :
    e.classifierInputs q o complexity optimism = e.classifierInputs p o complexity optimism := by
  -- as arrays, since the kernel is slow to compare the two vectors' proofs of their length
  rw [← Vector.toArray_inj]
  simp only [Evaluator.classifierInputs, funext h.countBoth, h.nonPawn, h.balance, hs, h.halfmoves]

theorem recheck? (hs : ScoredAlike nets p q) (e : Evaluator) (o : NetworkOutput)
    (complexity optimism : Int32) :
    e.recheck? nets (e.classifierInputs q o complexity optimism) =
      e.recheck? nets (e.classifierInputs p o complexity optimism) := by
  rcases hs with hn | hs
  · simp only [Evaluator.recheck?, hn]
  · rw [h.classifierInputs hs]

theorem consult? (hs : ScoredAlike nets p q) (hl : l.Valid nets (p :: ps))
    (hl' : l'.Valid nets (q :: qs)) (e : Evaluator) (optimism : Int32) :
    (e.consult? nets q l' optimism).map Prod.fst = (e.consult? nets p l optimism).map Prod.fst := by
  simp only [Evaluator.consult?, h.balance, h.nonPawn]
  -- the lines differ, and each query changes them, so only the answers are compared
  split
  · obtain ⟨o, m, m', ho, ho', hm, hm'⟩ := h.runSmall? hl hl'
    simp only [ho, ho', Option.bind_eq_bind, Option.bind_some, Option.pure_def, h.recheck? hs]
    split
    · cases e.recheck? nets (e.classifierInputs p o
        (o.scored p.nonPawnMaterialTotal).complexity optimism) with
      | none => rfl
      | some r =>
        obtain ⟨again, probability⟩ := r
        obtain ⟨o', n, n', ho, ho'⟩ := h.runBig? hm hm'
        cases again
        · rfl
        · simp [ho, ho']
    · rfl
  · obtain ⟨o, m, m', ho, ho'⟩ := h.runBig? hl hl'
    simp [ho, ho']

theorem blend? (e : Evaluator) (c : Consultation) (optimism : Int32) :
    e.blend? q c optimism = e.blend? p c optimism := by
  simp only [Evaluator.blend?, h.balance, h.nonPawn, h.countBoth]

theorem damp? (e : Evaluator) (v : Int32) : e.damp? q v = e.damp? p v := by
  simp only [Evaluator.damp?, h.halfmoves]

theorem evaluate? (hs : ScoredAlike nets p q) (hl : l.Valid nets (p :: ps))
    (hl' : l'.Valid nets (q :: qs)) (e : Evaluator) (optimism : Int32) :
    (e.evaluate? nets q l' optimism).map Prod.fst =
      (e.evaluate? nets p l optimism).map Prod.fst := by
  have hc := h.consult? hs hl hl' e optimism
  simp only [Evaluator.evaluate?, h.inCheck, h.balance, h.damp?, h.blend?]
  cases p.inCheck? with
  | none => simp only [Option.bind_eq_bind, Option.bind_none]
  | some check =>
    cases check with
    | true => simp only [Option.bind_eq_bind, Option.bind_some, if_true, Option.map_none]
    | false =>
      simp only [Option.bind_eq_bind, Option.bind_some, Bool.false_eq_true, if_false]
      split
      · simp only [Option.map_bind, Option.pure_def, Function.comp_def, Option.map_some]
      · cases hp : e.consult? nets p l optimism with
        | none =>
          rw [hp, Option.map_none, Option.map_eq_none_iff] at hc
          simp only [hc, Option.bind_none]
        | some x =>
          rw [hp, Option.map_some, Option.map_eq_some_iff] at hc
          obtain ⟨⟨c', m'⟩, hq, hc⟩ := hc
          obtain ⟨c, m⟩ := x
          obtain rfl : c' = c := hc
          simp only [hq, Option.bind_some, Option.map_bind, Option.pure_def, Function.comp_def,
            Option.map_some]

/-- The same breakdown, or none, on both positions. -/
theorem evaluateFresh? (hs : ScoredAlike nets p q) (hp : p.Sound) (hq : q.Sound) (e : Evaluator)
    (optimism : Int32) : e.evaluateFresh? nets q optimism = e.evaluateFresh? nets p optimism := by
  obtain ⟨l, hl, hvalid⟩ := Line.exists_start? hp nets
  obtain ⟨l', hl', hvalid'⟩ := Line.exists_start? hq nets
  have h := h.evaluate? hs hvalid hvalid' e optimism
  have hmap : ∀ (p : Position) (l : Line), Line.start? nets p = some l →
      e.evaluateFresh? nets p optimism = (e.evaluate? nets p l optimism).map Prod.fst := by
    intro p l hl
    simp only [Evaluator.evaluateFresh?, hl, Option.bind_eq_bind, Option.bind_some, Option.pure_def]
    cases e.evaluate? nets p l optimism <;> rfl
  rw [hmap q l' hl', hmap p l hl, h]

end Alike

/-- No divisor is zero or minus one, so that every quotient exists. -/
def EvalConfig.Divides (c : EvalConfig) : Prop :=
  ∀ d ∈ [c.optimismDivisor, c.scoreDivisor, c.dampingDivisor], d ≠ 0 ∧ d ≠ -1

theorem EvalConfig.divides_default : EvalConfig.default.Divides := by
  simp [Divides, default]

/-- The classifier, if there is one, has a first hidden layer. -/
def Networks.Classifies (nets : Networks) : Prop := ∀ c, nets.classifier = some c → c.h1 ≠ 0

theorem Int32.toInt64_injective : Function.Injective Int32.toInt64 := fun a b h =>
  Int32.toInt.inj (by rw [← Int32.toInt_toInt64, h, Int32.toInt_toInt64])

theorem Kernel.exists_quotient? {d : Int32} (a : Int64) (hd : d ≠ 0 ∧ d ≠ -1) :
    ∃ x, Kernel.quotient? a d.toInt64 = some x := by
  have h0 : d.toInt64 ≠ 0 := fun h => hd.1 (Int32.toInt64_injective (h.trans (by decide)))
  have h1 : d.toInt64 ≠ -1 := fun h => hd.2 (Int32.toInt64_injective (h.trans (by decide)))
  exact ⟨a / d.toInt64, by simp [Kernel.quotient?, h0, h1]⟩

theorem exists_bind {α β : Type} {x : Option α} {f : α → Option β} (hx : ∃ a, x = some a)
    (hf : ∀ a, ∃ b, f a = some b) : ∃ b, x.bind f = some b := by
  obtain ⟨a, rfl⟩ := hx
  exact hf a

namespace Evaluator

theorem exists_blend? (he : e.config.Divides) (p : Position) (c : Consultation)
    (optimism : Int32) : ∃ x, e.blend? p c optimism = some x := by
  refine exists_bind (Kernel.exists_quotient? _ (he _ (by simp))) fun x => ?_
  exact exists_bind (Kernel.exists_quotient? _ (he _ (by simp))) fun y => ⟨_, rfl⟩

theorem exists_damp? (he : e.config.Divides) (p : Position) (v : Int32) :
    ∃ x, e.damp? p v = some x :=
  exists_bind (Kernel.exists_quotient? _ (he _ (by simp))) fun x => ⟨_, rfl⟩

theorem exists_runBig? (hl : l.Valid nets (p :: ps)) :
    ∃ o m, runBig? nets p l = some (o, m) := by
  obtain ⟨a, m, ha, -⟩ := hl.bigAccumulator?
  exact ⟨nets.big.evaluate a p.turn p.pieceCount, m, by simp only [runBig?, ha, Option.map_some]⟩

theorem exists_runSmall? (hl : l.Valid nets (p :: ps)) :
    ∃ o m, runSmall? nets p l = some (o, m) ∧ m.Valid nets (p :: ps) := by
  obtain ⟨a, m, ha, hm, -⟩ := hl.smallAccumulator?
  exact ⟨nets.small.evaluate a p.turn, m, by simp only [runSmall?, ha, Option.map_some], hm⟩

theorem exists_recheck? (hn : nets.Classifies) (e : Evaluator) (inputs : Vector Float32 10) :
    ∃ again probability, e.recheck? nets inputs = some (again, probability) := by
  rw [recheck?]
  split
  · exact ⟨true, none, rfl⟩
  · next c hc => simp [Classifier.probability?, hn c hc]

theorem exists_consult? (hn : nets.Classifies) (hl : l.Valid nets (p :: ps)) (e : Evaluator)
    (optimism : Int32) : ∃ c m, e.consult? nets p l optimism = some (c, m) := by
  rw [consult?]
  split
  · obtain ⟨o, m, ho, hm⟩ := exists_runSmall? hl
    simp only [ho, Option.bind_eq_bind, Option.bind_some, Option.pure_def]
    split
    · obtain ⟨again, probability, hr⟩ := exists_recheck? hn e
        (e.classifierInputs p o (o.scored p.nonPawnMaterialTotal).complexity optimism)
      obtain ⟨o', n, ho'⟩ := exists_runBig? hm
      cases again <;> simp [hr, ho']
    · simp
  · obtain ⟨o, m, ho⟩ := exists_runBig? hl
    simp [ho]

/-- Out of check the evaluation of the last position of a line gives a breakdown. -/
theorem exists_evaluate? (he : e.config.Divides) (hn : nets.Classifies) (hl : l.Valid nets (p :: ps))
    (hc : p.inCheck? = some false) (optimism : Int32) :
    ∃ b l', e.evaluate? nets p l optimism = some (b, l') := by
  obtain ⟨c, m, hconsult⟩ := exists_consult? hn hl e optimism
  obtain ⟨⟨score, blended⟩, hblend⟩ := exists_blend? he p c optimism
  obtain ⟨lazily, hlazily⟩ := exists_damp? he p (p.materialBalance p.turn)
  obtain ⟨value, hvalue⟩ := exists_damp? he p (Kernel.saturate blended)
  simp only [evaluate?, hc, Option.bind_eq_bind, Option.bind_some, Bool.false_eq_true, if_false,
    Option.pure_def]
  split
  · simp [hlazily]
  · simp [hconsult, hblend, hvalue]

/-- Out of check the evaluation of a position on its own gives a breakdown. -/
theorem exists_evaluateFresh? (he : e.config.Divides) (hn : nets.Classifies) (hp : p.Sound)
    (hc : p.inCheck? = some false) (optimism : Int32) :
    ∃ b, e.evaluateFresh? nets p optimism = some b := by
  obtain ⟨l, hl, hvalid⟩ := Line.exists_start? hp nets
  obtain ⟨b, l', hb⟩ := exists_evaluate? he hn hvalid hc optimism
  exact ⟨b, by simp only [evaluateFresh?, hl, hb, Option.bind_eq_bind, Option.bind_some,
    Option.pure_def]⟩

end Evaluator

end ChessEval
