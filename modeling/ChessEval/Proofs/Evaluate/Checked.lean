import ChessEval.Evaluate.Blend
import ChessEval.Proofs.Network.SmallBytes

/-! The evaluation run with checked arithmetic, which stops where a number does not fit into its
word. -/
namespace ChessEval

/-- Why a checked run stops. -/
inductive Fault where
  | overflow
  /-- No result, with or without the checks. -/
  | absent
  deriving DecidableEq

namespace Checked

def ofOption {α : Type} : Option α → Except Fault α
  | some a => .ok a
  | none => .error .absent

/-- The word of 64 bits that holds a number, if there is one. -/
def wide (n : Int) : Except Fault Int64 :=
  if -9223372036854775808 ≤ n ∧ n ≤ 9223372036854775807 then .ok (.ofInt n) else .error .overflow

/-- The word of 32 bits that holds a number, if there is one. -/
def narrow (n : Int) : Except Fault Int32 :=
  if -2147483648 ≤ n ∧ n ≤ 2147483647 then .ok (.ofInt n) else .error .overflow

def add (a b : Int64) : Except Fault Int64 := wide (a.toInt + b.toInt)

def sub (a b : Int64) : Except Fault Int64 := wide (a.toInt - b.toInt)

def mul (a b : Int64) : Except Fault Int64 := wide (a.toInt * b.toInt)

def abs (a : Int64) : Except Fault Int64 := wide |a.toInt|

/-- A quotient rounded toward zero. -/
def div (a b : Int64) : Except Fault Int64 :=
  if b = 0 then .error .absent else wide (a.toInt.tdiv b.toInt)

def sub32 (a b : Int32) : Except Fault Int32 := narrow (a.toInt - b.toInt)

def abs32 (a : Int32) : Except Fault Int32 := narrow |a.toInt|

def div32 (a b : Int32) : Except Fault Int32 :=
  if b = 0 then .error .absent else narrow (a.toInt.tdiv b.toInt)

section Run

open Evaluator

/-- A network's two terms weighed, as `NetworkOutput.scored` does it. -/
def scored (o : NetworkOutput) (material : Int32) : Except Fault Scored := do
  let delta := (← sub32 24 (← div32 material 9560)).toInt64
  let psqt := o.psqt.toInt64
  let positional := o.positional.toInt64
  let ours ← mul (← sub 1024 delta) psqt
  let theirs ← mul (← add 1024 delta) positional
  let score ← div (← add ours theirs) 16384
  let complexity ← div (← abs (← sub psqt positional)) 16
  return ⟨Kernel.saturate score, Kernel.saturate complexity⟩

/-- The choice of a network, as `Evaluator.consult?` makes it. -/
def consult (e : Evaluator) (nets : Networks) (p : Position) (l : Line) (optimism : Int32) :
    Except Fault (Consultation × Line) := do
  let material := p.nonPawnMaterialTotal
  if e.config.smallThreshold < (← abs32 (p.materialBalance p.turn)) then
    let (o, l) ← ofOption (runSmall? nets p l)
    let s ← scored o material
    if (← abs32 s.score) < e.config.recheckThreshold then
      let (again, q) ← ofOption (e.recheck? nets (e.classifierInputs p o s.complexity optimism))
      if again then
        let (o, l) ← ofOption (runBig? nets p l)
        return (⟨.big, true, q, o, ← scored o material⟩, l)
      else return (⟨.small, false, q, o, s⟩, l)
    else return (⟨.small, false, none, o, s⟩, l)
  else
    let (o, l) ← ofOption (runBig? nets p l)
    return (⟨.big, false, none, o, ← scored o material⟩, l)

/-- The complexity and how far the score is from the material balance. -/
def spread (p : Position) (s : Scored) : Except Fault Int64 := do
  let gap ← sub (p.materialBalance p.turn).toInt64 s.score.toInt64
  add s.complexity.toInt64 (← abs gap)

/-- A score reduced and an optimism raised by the spread. -/
def adjusted (e : Evaluator) (score optimism spread : Int64) : Except Fault (Int64 × Int64) := do
  let raised ← add optimism (← div (← mul optimism spread) e.config.optimismDivisor.toInt64)
  let reduced ← sub score (← div (← mul score spread) e.config.scoreDivisor.toInt64)
  return (reduced, raised)

/-- The weight of the chosen network's score. -/
def netWeight (e : Evaluator) : NetworkChoice → Int64
  | .small => e.config.smallWeight.toInt64
  | _ => e.config.bigWeight.toInt64

/-- Score and optimism, each with its weight. -/
def weighed (e : Evaluator) (p : Position) (choice : NetworkChoice) (score optimism : Int64) :
    Except Fault Int64 := do
  let material := (← div32 p.nonPawnMaterialTotal 64).toInt64
  let pawns := Int64.ofNat (p.countBoth .pawn)
  let weight ← add (← add (netWeight e choice) material) (← mul e.config.pawnWeight.toInt64 pawns)
  let base ← add e.config.optimismBase.toInt64 material
  div (← add (← mul score weight) (← mul optimism base)) 1024

/-- The blend of score and optimism, as `Evaluator.blend?` does it. -/
def blend (e : Evaluator) (p : Position) (c : Consultation) (optimism : Int32) :
    Except Fault (Int64 × Int64) := do
  let spread ← spread p c.scored
  let (score, optimism) ← adjusted e c.scored.score.toInt64 optimism.toInt64 spread
  return (score, ← weighed e p c.choice score optimism)

/-- The damping by the clock, as `Evaluator.damp?` does it. -/
def damp (e : Evaluator) (p : Position) (blended : Int32) : Except Fault Int32 := do
  let clock := Int64.ofNat p.halfmoves.toNat
  let cap := e.config.dampingCap.toInt64
  let shuffle := if cap < clock then cap else clock
  let damped ← div (← mul blended.toInt64 (← sub e.config.dampingBase.toInt64 shuffle))
    e.config.dampingDivisor.toInt64
  let v := Kernel.saturate damped
  return if v < -evalLimit then -evalLimit else if evalLimit < v then evalLimit else v

/-- The evaluation, as `Evaluator.evaluate?` runs it. -/
def evaluate (e : Evaluator) (nets : Networks) (p : Position) (l : Line) (optimism : Int32) :
    Except Fault (Breakdown × Line) := do
  let check ← ofOption p.inCheck?
  if check then .error .absent
  else
    let balance := p.materialBalance p.turn
    if e.config.lazyThreshold < (← abs32 balance) then
      let value ← damp e p balance
      return (⟨balance, .lazily, false, none, ⟨0, 0⟩, 0, 0, balance, value⟩, l)
    else
      let (c, l) ← consult e nets p l optimism
      let (score, blended) ← blend e p c optimism
      let blended := Kernel.saturate blended
      let value ← damp e p blended
      return (⟨balance, c.choice, c.rechecked, c.probability, c.output, Kernel.saturate score,
        c.scored.complexity, blended, value⟩, l)

end Run

section Words

variable {a b : Int64} {x y : Int32} {m n d A B : Int}

/-- A word's number, and how large it is at most. -/
structure Exact (w n bound : Int) : Prop where
  eq : w = n
  le : |n| ≤ bound

/-- A constant. -/
theorem Exact.of_eq {w : Int} (h : w = n) (hn : 0 ≤ n) : Exact w n n := ⟨h, (abs_of_nonneg hn).le⟩

theorem Exact.ofInt32 (x : Int32) : Exact x.toInt x.toInt 2147483648 where
  eq := rfl
  le := abs_le.mpr ⟨x.le_toInt, by have := x.toInt_lt; omega⟩

theorem Exact.toInt64 (h : Exact x.toInt n A) : Exact x.toInt64.toInt n A :=
  ⟨x.toInt_toInt64.trans h.eq, h.le⟩

theorem wide_toInt (a : Int64) : wide a.toInt = .ok a := by
  rw [wide, Int64.ofInt_toInt, if_pos ⟨a.le_toInt, Int.le_of_lt_add_one a.toInt_lt⟩]

theorem narrow_toInt (x : Int32) : narrow x.toInt = .ok x := by
  rw [narrow, Int32.ofInt_toInt, if_pos ⟨x.le_toInt, Int.le_of_lt_add_one x.toInt_lt⟩]

theorem wide_eq_ok_iff : wide n = .ok a ↔ a.toInt = n := by
  constructor
  · intro h
    rw [wide] at h
    split at h
    · next hn => rw [← Except.ok.inj h, Int64.toInt_ofInt_of_le hn.1 (Int.lt_add_one_of_le hn.2)]
    · cases h
  · rintro rfl
    exact wide_toInt a

/-- A number within the range of a word is held by the word that its wrapped value gives. -/
theorem wide_exact (hn : |n| ≤ A) (hA : A ≤ 9223372036854775807) (ha : a.toInt = n.bmod (2 ^ 64)) :
    wide n = .ok a ∧ Exact a.toInt n A := by
  obtain ⟨hle, hge⟩ := abs_le.mp (hn.trans hA)
  rw [Int.bmod_eq_of_le (by omega) (by omega)] at ha
  exact ⟨ha ▸ wide_toInt a, ha, hn⟩

theorem narrow_exact (hn : |n| ≤ A) (hA : A ≤ 2147483647) (hx : x.toInt = n.bmod (2 ^ 32)) :
    narrow n = .ok x ∧ Exact x.toInt n A := by
  obtain ⟨hle, hge⟩ := abs_le.mp (hn.trans hA)
  rw [Int.bmod_eq_of_le (by omega) (by omega)] at hx
  exact ⟨hx ▸ narrow_toInt x, hx, hn⟩

/-- The least number has no absolute value. -/
theorem toInt_abs (h : -9223372036854775808 < a.toInt) : a.abs.toInt = |a.toInt| := by
  have ha : a.toBitVec ≠ BitVec.intMin 64 := fun he => by
    rw [← Int64.toInt_toBitVec, he] at h
    exact absurd h (by decide)
  rw [← Int64.toInt_toBitVec, Int64.toBitVec_abs, BitVec.toInt_abs_eq_natAbs_of_ne_intMin ha,
    Int.abs_eq_natAbs]
  rfl

theorem abs_tdiv_le (hd : 0 < d) (h : |n| ≤ A) : |n.tdiv d| ≤ A / d := by
  obtain ⟨hle, hge⟩ := abs_le.mp h
  have hA : A.tdiv d = A / d := Int.tdiv_eq_ediv_of_nonneg ((abs_nonneg n).trans h)
  rw [abs_le, ← hA, ← Int.neg_tdiv]
  exact ⟨Int.tdiv_le_tdiv hd hle, Int.tdiv_le_tdiv hd hge⟩

/-- A checked quotient is one that exists. -/
theorem quotient?_of_div {c : Int64} (h : div a b = .ok c) : Kernel.quotient? a b = some c := by
  rw [div] at h
  split at h
  · cases h
  · next hb =>
    have hc := wide_eq_ok_iff.mp h
    have hno : ¬ (a = Int64.minValue ∧ b = -1) := by
      rintro ⟨rfl, rfl⟩
      have hlt := c.toInt_lt
      rw [hc] at hlt
      exact absurd hlt (by decide)
    rw [Kernel.quotient?, if_neg (by tauto), Option.some.injEq, ← Int64.toInt_inj, Int64.toInt_div,
      ← hc]
    exact c.toInt_bmod

namespace Exact

section Pairs

variable (ha : Exact a.toInt m A) (hb : Exact b.toInt n B)

include ha hb

theorem add_eq (h : A + B ≤ 9223372036854775807) :
    add a b = .ok (a + b) ∧ Exact (a + b).toInt (m + n) (A + B) := by
  have hle : |m + n| ≤ A + B := (abs_add_le m n).trans (add_le_add ha.le hb.le)
  rw [add, ha.eq, hb.eq]
  exact wide_exact (a := a + b) hle h (by rw [Int64.toInt_add, ha.eq, hb.eq])

theorem sub_eq (h : A + B ≤ 9223372036854775807) :
    sub a b = .ok (a - b) ∧ Exact (a - b).toInt (m - n) (A + B) := by
  have hle : |m - n| ≤ A + B := (abs_sub m n).trans (add_le_add ha.le hb.le)
  rw [sub, ha.eq, hb.eq]
  exact wide_exact (a := a - b) hle h (by rw [Int64.toInt_sub, ha.eq, hb.eq])

theorem mul_eq (h : A * B ≤ 9223372036854775807) :
    mul a b = .ok (a * b) ∧ Exact (a * b).toInt (m * n) (A * B) := by
  have hle : |m * n| ≤ A * B := by
    rw [abs_mul]
    exact mul_le_mul ha.le hb.le (abs_nonneg n) ((abs_nonneg m).trans ha.le)
  rw [mul, ha.eq, hb.eq]
  exact wide_exact (a := a * b) hle h (by rw [Int64.toInt_mul, ha.eq, hb.eq])

end Pairs

theorem abs_eq (ha : Exact a.toInt m A) (h : A ≤ 9223372036854775807) :
    abs a = .ok a.abs ∧ Exact a.abs.toInt |m| A := by
  have hle : |(|m|)| ≤ A := (abs_abs m).trans_le ha.le
  have hmin : -9223372036854775808 < a.toInt := by
    have := (abs_le.mp (ha.le.trans h)).1
    rw [ha.eq]
    omega
  have habs : a.abs.toInt = |m| := by rw [toInt_abs hmin, ha.eq]
  rw [abs, ha.eq, ← habs, wide_toInt]
  exact ⟨rfl, rfl, habs ▸ hle⟩

theorem div_eq (ha : Exact a.toInt m A) (hb : b.toInt = d) (hd : 0 < d)
    (h : A / d ≤ 9223372036854775807) :
    div a b = .ok (a / b) ∧ Exact (a / b).toInt (m.tdiv d) (A / d) := by
  have hne : b ≠ 0 := by
    rintro rfl
    exact hd.ne hb
  rw [div, if_neg hne, ha.eq, hb]
  exact wide_exact (a := a / b) (abs_tdiv_le hd ha.le) h (by rw [Int64.toInt_div, ha.eq, hb])

theorem sub32_eq (hx : Exact x.toInt m A) (hy : Exact y.toInt n B) (h : A + B ≤ 2147483647) :
    sub32 x y = .ok (x - y) ∧ Exact (x - y).toInt (m - n) (A + B) := by
  have hle : |m - n| ≤ A + B := (abs_sub m n).trans (add_le_add hx.le hy.le)
  rw [sub32, hx.eq, hy.eq]
  exact narrow_exact (x := x - y) hle h (by rw [Int32.toInt_sub, hx.eq, hy.eq])

theorem abs32_eq (hx : Exact x.toInt m A) (h : A ≤ 2147483647) :
    abs32 x = .ok x.abs ∧ Exact x.abs.toInt |m| A := by
  have hle : |(|m|)| ≤ A := (abs_abs m).trans_le hx.le
  have hmin : -2147483648 < x.toInt := by
    have := (abs_le.mp (hx.le.trans h)).1
    rw [hx.eq]
    omega
  have habs : x.abs.toInt = |m| := by rw [Kernel.toInt_abs hmin, hx.eq]
  rw [abs32, hx.eq, ← habs, narrow_toInt]
  exact ⟨rfl, rfl, habs ▸ hle⟩

theorem div32_eq (hx : Exact x.toInt m A) (hy : y.toInt = d) (hd : 0 < d)
    (h : A / d ≤ 2147483647) :
    div32 x y = .ok (x / y) ∧ Exact (x / y).toInt (m.tdiv d) (A / d) := by
  have hne : y ≠ 0 := by
    rintro rfl
    exact hd.ne hy
  rw [div32, if_neg hne, hx.eq, hy]
  exact narrow_exact (x := x / y) (abs_tdiv_le hd hx.le) h (by rw [Int32.toInt_div, hx.eq, hy])

end Exact

end Words

end Checked

end ChessEval
