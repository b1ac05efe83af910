import ChessEval.Network.LaneEvaluation
import ChessEval.Proofs.Network.LaneArithmetic

/-! The networks' answers do not depend on whether they are computed in lanes: every byte that
enters a layer has been clamped or is an activation, so no sum of two products saturates. -/
namespace ChessEval

namespace Affine

variable {inputs outputs : Nat}

theorem applyInLanes_eq (l : Affine inputs outputs) {x : Vector UInt8 (padded inputs)}
    (hx : ∀ b ∈ x, b ≤ 127) : l.applyInLanes x = l.apply x := by
  have hdot : (Lanes.dot x : Vector Int8 (padded inputs) → Int32) = Kernel.dot x :=
    funext (Lanes.dot_eq hx)
  exact congrArg (fun d => Vector.zipWith (fun b w => b + d w) l.biases l.weights) hdot

end Affine

namespace LayerStack

/-- What the layers of a stack are applied to, one after another. -/
structure Operands where
  first : Vector UInt8 (padded 512)
  second : Vector UInt8 (padded 15)
  third : Vector UInt8 (padded 32)

def operands (s : LayerStack) (x : Vector UInt8 512) : Operands :=
  let second := hidden (s.first.apply x)
  { first := x, second, third := Kernel.activateAll (s.second.apply second) }

theorem apply_eq (s : LayerStack) (x : Vector UInt8 512) :
    s.apply x =
      output (s.first.apply (s.operands x).first) (s.third.apply (s.operands x).third) := by
  rw [apply, operands]

/-- No byte is above 127, so no sum of two products is beyond 16 bits. -/
structure Operands.Small (o : Operands) : Prop where
  first : ∀ b ∈ o.first, b ≤ 127
  second : ∀ b ∈ o.second, b ≤ 127
  third : ∀ b ∈ o.third, b ≤ 127

theorem le_of_mem_activateAll {n : Nat} {v : Vector Int32 n} {b : UInt8}
    (h : b ∈ Kernel.activateAll v) : b ≤ 127 := by
  obtain ⟨x, -, rfl⟩ := Vector.mem_map.mp h
  exact UInt8.le_trans (Kernel.activate_le x) (by decide)

theorem le_of_mem_hidden {v : Vector Int32 16} {b : UInt8} (h : b ∈ hidden v) : b ≤ 127 := by
  obtain ⟨i, rfl⟩ := Vector.mem_ofFn.mp h
  split
  · exact UInt8.le_trans (Kernel.activate_le _) (by decide)
  · decide

theorem small_operands (s : LayerStack) {x : Vector UInt8 512} (hx : ∀ b ∈ x, b ≤ 127) :
    (s.operands x).Small where
  first := hx
  second _ := le_of_mem_hidden
  third _ := le_of_mem_activateAll

theorem hiddenInLanes_eq (v : Vector Int32 16) : hiddenInLanes v = hidden v := by
  rw [hiddenInLanes, Lanes.activateAll_eq (n := 2)]
  refine Vector.ext fun i hi => ?_
  simp [hidden, Kernel.activateAll, Vector.get]
  rfl

theorem applyInLanes_eq (s : LayerStack) {x : Vector UInt8 512} (hx : ∀ b ∈ x, b ≤ 127) :
    s.applyInLanes x = s.apply x := by
  have hsmall := s.small_operands hx
  have hfirst : s.first.applyInLanes x = s.first.apply x := s.first.applyInLanes_eq hx
  have hsecond : s.second.applyInLanes (hidden (s.first.apply x)) =
      s.second.apply (hidden (s.first.apply x)) :=
    s.second.applyInLanes_eq hsmall.second
  rw [applyInLanes, apply, hfirst, hiddenInLanes_eq, hsecond, Lanes.activateAll_eq (n := 4)]
  exact congrArg _ (s.third.applyInLanes_eq hsmall.third)

end LayerStack

theorem Head.applyInLanes_eq (h : Head 64) (us them : Vector Int16 64) :
    h.applyInLanes us them = h.apply us them := by
  have hclip : 0 ≤ clip := by decide
  rw [applyInLanes, apply, Lanes.screluDot_eq (n := 4) hclip, Lanes.screluDot_eq (n := 4) hclip]

namespace BigNetwork

variable (n : BigNetwork) (a : BigAccumulator) (turn : Color) (pieces : Nat)

/-- What an evaluation applies the layers to. -/
def operands : LayerStack.Operands :=
  (n.layerStacks.get (bucket pieces)).operands
    (Kernel.clampToBytes (a.half turn).sums.values ++
      Kernel.clampToBytes (a.half turn.opponent).sums.values)

theorem le_of_mem_clamped {u v : Vector Int16 256} {b : UInt8}
    (h : b ∈ Kernel.clampToBytes u ++ Kernel.clampToBytes v) : b ≤ 127 := by
  obtain h | h := Vector.mem_append.mp h <;>
    obtain ⟨x, -, rfl⟩ := Vector.mem_map.mp h <;>
    exact Kernel.clampToByte_le x

theorem positional_eq : (n.evaluate a turn pieces).positional =
    LayerStack.output
      ((n.layerStacks.get (bucket pieces)).first.apply (n.operands a turn pieces).first)
      ((n.layerStacks.get (bucket pieces)).third.apply (n.operands a turn pieces).third) := by
  rw [evaluate, LayerStack.apply_eq, operands]

theorem small_operands : (n.operands a turn pieces).Small :=
  LayerStack.small_operands _ fun _ => le_of_mem_clamped

theorem evaluateInLanes_eq : n.evaluateInLanes a turn pieces = n.evaluate a turn pieces := by
  rw [evaluateInLanes, Lanes.clampToBytes_eq (n := 8), Lanes.clampToBytes_eq (n := 8)]
  rw [LayerStack.applyInLanes_eq _ fun b => le_of_mem_clamped]
  rfl

end BigNetwork

theorem SmallNetwork.evaluateInLanes_eq (n : SmallNetwork) (a : SmallAccumulator) (turn : Color) :
    n.evaluateInLanes a turn = n.evaluate a turn := by
  rw [evaluateInLanes, Head.applyInLanes_eq]
  rfl

/-- Every operation gives in lanes what it gives on vectors: the clipped sum when the clip is not
negative, the weighted sum of bytes when no byte is above 127. All that an evaluation applies its
layers to is of that kind, so the answers of both networks are the same in lanes. -/
theorem Lanes.same_results :
    (∀ (n : Nat) (a b : Vector Int16 (n * 16)),
      Lanes.add a b = Kernel.add a b ∧ Lanes.sub a b = Kernel.sub a b) ∧
    (∀ (n : Nat) (v : Vector Int16 (n * 32)), Lanes.clampToBytes v = Kernel.clampToBytes v) ∧
    (∀ (n : Nat) (v : Vector Int32 (n * 8)), Lanes.activateAll v = Kernel.activateAll v) ∧
    (∀ (n : Nat) (clip : Int16) (a w : Vector Int16 (n * 16)),
      0 ≤ clip → Lanes.screluDot clip a w = Kernel.screluDot clip a w) ∧
    (∀ (n : Nat) (x : Vector UInt8 (n * 32)) (w : Vector Int8 (n * 32)),
      (∀ b ∈ x, b ≤ 127) → Lanes.dot x w = Kernel.dot x w) ∧
    (∀ (n : BigNetwork) (a : BigAccumulator) (turn : Color) (pieces : Nat),
      let s := n.layerStacks.get (BigNetwork.bucket pieces)
      let o := n.operands a turn pieces
      (n.evaluate a turn pieces).positional =
          LayerStack.output (s.first.apply o.first) (s.third.apply o.third) ∧
        o.second = LayerStack.hidden (s.first.apply o.first) ∧
        o.third = Kernel.activateAll (s.second.apply o.second) ∧
        o.Small ∧
        n.evaluateInLanes a turn pieces = n.evaluate a turn pieces) ∧
    ∀ (n : SmallNetwork) (a : SmallAccumulator) (turn : Color),
      n.evaluateInLanes a turn = n.evaluate a turn := by
  refine ⟨fun n a b => ⟨add_eq a b, sub_eq a b⟩, fun n v => clampToBytes_eq v,
    fun n v => activateAll_eq v, fun n clip a w h => screluDot_eq h a w,
    fun n x w h => dot_eq h w, fun n a turn pieces => ?_, SmallNetwork.evaluateInLanes_eq⟩
  exact ⟨n.positional_eq a turn pieces, rfl, rfl, n.small_operands a turn pieces,
    n.evaluateInLanes_eq a turn pieces⟩

theorem Lanes.same_results_of_clip_of_bytes :
    0 ≤ Head.clip ∧
    (∀ b ∈ (.replicate 32 127 : Vector UInt8 (1 * 32)), b ≤ 127) ∧
    Lanes.screluDot (n := 1) Head.clip (.replicate 16 300) (.replicate 16 (-9)) = -1468944 ∧
    Lanes.dot (n := 1) (.replicate 32 127) (.replicate 32 (-128)) = -520192 := by
  have hclip : 0 ≤ Head.clip := by decide
  have hbytes : ∀ b ∈ (.replicate 32 127 : Vector UInt8 (1 * 32)), b ≤ 127 := by simp
  obtain ⟨-, -, -, hscrelu, hdot, -⟩ := same_results
  refine ⟨hclip, hbytes, (hscrelu 1 _ _ _ hclip).trans ?_, (hdot 1 _ _ hbytes).trans ?_⟩
  · decide +kernel
  · decide +kernel

/-- Beyond 127 the sum of two products saturates. -/
example : Lanes.dot (n := 1) (.replicate 32 255) (.replicate 32 127) ≠
    Kernel.dot (.replicate 32 255) (.replicate 32 127) := by
  decide +kernel

end ChessEval
