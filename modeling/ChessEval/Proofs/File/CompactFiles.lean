import ChessEval.Proofs.File.Codes
import ChessEval.Proofs.File.Layouts
import ChessEval.Proofs.File.Readers

/-! The two formats with weights of one byte lose nothing: what is read is what was written, and a
file that is read is the one that its network is written as. -/
namespace ChessEval

open File

namespace File.Layout

theorem lawful_head (width : Nat) : (head width).Lawful :=
  ((lawful_int16.vector width).pair ((lawful_int16.vector width).pair lawful_int16)).through
    (fun _ => rfl) (fun _ => rfl)

end File.Layout

namespace SmallNetwork

variable {n : SmallNetwork} {b : ByteArray}

/-- The piece-square sums of a network whose file has none. -/
def noPsqt : Vector (Vector Int32 1) 768 := .replicate 768 (.replicate 1 0)

/-- What a headerless file consists of. -/
def headerlessLayout : Layout ((WeightCodes × Vector Int8 64) × Head 64) :=
  coreLayout.pair (Layout.head 64)

/-- What a compact file consists of, from its version on. -/
def compactLayout :
    Layout (UInt32 × UInt32 × (WeightCodes × Vector Int8 64) × Vector (Vector Int32 1) 768 ×
      Head 64) :=
  Layout.uint32.pair (Layout.uint32.pair (coreLayout.pair
    (((Layout.int32.vector 1).vector 768).pair (Layout.head 64))))

theorem lawful_coreLayout : coreLayout.Lawful :=
  have codes := (((Layout.lawful_int8.vector 64).vector 64).vector 2).vector 6
  codes.pair (Layout.lawful_int8.vector 64)

theorem lawful_headerlessLayout : headerlessLayout.Lawful :=
  lawful_coreLayout.pair (Layout.lawful_head 64)

theorem lawful_compactLayout : compactLayout.Lawful :=
  Layout.lawful_uint32.pair (Layout.lawful_uint32.pair (lawful_coreLayout.pair
    (((Layout.lawful_int32.vector 1).vector 768).pair (Layout.lawful_head 64))))

/-- A headerless file holds the codes and the head of the network that is read from it, and nothing
else. -/
theorem headerlessReader_eq_ok_iff :
    headerlessReader.run b = .ok n ↔
      ∃ core head, headerlessLayout.bytes (core, head) = b ∧ ofCore core noPsqt head = n := by
  simp only [Reader.run_eq_ok_iff, headerlessReader, Reader.bind_eq_ok_iff, Reader.take_eq_ok_iff,
    Reader.finish_eq_ok_iff, Reader.pure_eq_ok_iff, lawful_headerlessLayout.bytes_eq_iff]
  simp only [headerlessLayout, Layout.at_pair_iff, Layout.size_pair, Nat.zero_add]
  constructor
  · rintro ⟨_, core, _, ⟨hcore, rfl⟩, head, _, ⟨hhead, rfl⟩, _, _, ⟨hend, rfl⟩, rfl, rfl⟩
    exact ⟨core, head, ⟨⟨hcore, hhead⟩, hend⟩, rfl⟩
  · rintro ⟨core, head, ⟨⟨hcore, hhead⟩, hend⟩, rfl⟩
    exact ⟨_, core, _, ⟨hcore, rfl⟩, head, _, ⟨hhead, rfl⟩, (), _, ⟨hend, rfl⟩, rfl, rfl⟩

/-- Behind its version a compact file holds the codes, the sums and the head of the network that is
read from it, and nothing else. -/
theorem compactReader_eq_ok_iff :
    (Layout.uint32.At b 0 compactVersion ∧ ∃ d, compactReader ⟨b, 4⟩ = .ok (n, d)) ↔
      ∃ core psqt head, compactLayout.bytes (compactVersion, fileHash, core, psqt, head) = b ∧
        ofCore core psqt head = n := by
  simp only [compactReader, Reader.bind_eq_ok_iff, Reader.take_eq_ok_iff, Reader.finish_eq_ok_iff,
    Reader.pure_eq_ok_iff, Reader.checkHash_eq_ok_iff, lawful_compactLayout.bytes_eq_iff]
  simp only [compactLayout, Layout.at_pair_iff, Layout.size_pair, Layout.size_uint32, Nat.zero_add]
  -- both sides now name the same values at the same places, the reader one after the other
  constructor
  · rintro ⟨hversion, _, _, _, ⟨hhash, rfl⟩, core, _, ⟨hcore, rfl⟩, psqt, _, ⟨hpsqt, rfl⟩,
      head, _, ⟨hhead, rfl⟩, _, _, ⟨hend, rfl⟩, rfl, rfl⟩
    exact ⟨core, psqt, head, ⟨⟨hversion, hhash, hcore, hpsqt, hhead⟩,
      by simpa only [Nat.add_assoc] using hend⟩, rfl⟩
  · rintro ⟨core, psqt, head, ⟨⟨hversion, hhash, hcore, hpsqt, hhead⟩, hend⟩, rfl⟩
    exact ⟨hversion, _, (), _, ⟨hhash, rfl⟩, core, _, ⟨hcore, rfl⟩, psqt, _, ⟨hpsqt, rfl⟩,
      head, _, ⟨hhead, rfl⟩, (), _, ⟨by simpa only [Nat.add_assoc] using hend, rfl⟩, rfl, rfl⟩

theorem ofCore_eq_iff {core : WeightCodes × Vector Int8 64} {psqt : Vector (Vector Int32 1) 768}
    {head : Head 64} :
    ofCore core psqt head = { n with description := "" } ↔
      n.core = .ok core ∧ n.transformer.psqt = psqt ∧ n.head = head := by
  rw [core_eq_ok_iff]
  constructor
  · intro h
    have ht := congrArg SmallNetwork.transformer h
    exact ⟨⟨congrArg Transformer.weights ht, congrArg Transformer.biases ht⟩,
      (congrArg Transformer.psqt ht).symm, (congrArg SmallNetwork.head h).symm⟩
  · obtain ⟨text, ⟨biases, weights, sums⟩, h⟩ := n
    rintro ⟨⟨rfl, rfl⟩, rfl, rfl⟩
    rfl

theorem psqt_all_zero_iff {psqt : Vector (Vector Int32 1) 768} :
    (psqt.all fun row => row.all (· == 0)) = true ↔ psqt = noPsqt := by
  simp only [Vector.all_eq_true, beq_iff_eq, noPsqt]
  constructor
  · intro h
    apply Vector.ext
    intro i hi
    apply Vector.ext
    intro j hj
    simp [h i hi j hj]
  · rintro rfl i hi j hj
    simp

/-- A headerless file is written exactly if the reader of such files gives the network back from
it. -/
theorem writeHeaderless_eq_ok_iff :
    n.writeHeaderless = .ok b ↔ headerlessReader.run b = .ok { n with description := "" } := by
  rw [headerlessReader_eq_ok_iff]
  simp only [ofCore_eq_iff]
  unfold writeHeaderless
  split
  next hz =>
    have hpsqt := psqt_all_zero_iff.mp hz
    cases hcore : n.core with
    | error e => simp [bind, Except.bind]
    | ok core =>
      constructor
      · rintro ⟨rfl⟩
        exact ⟨core, n.head, rfl, rfl, hpsqt, rfl⟩
      · rintro ⟨_, _, rfl, ⟨rfl⟩, -, rfl⟩
        rfl
  next hz =>
    constructor
    · rintro ⟨⟩
    · rintro ⟨core, head, -, -, hpsqt, -⟩
      exact absurd (psqt_all_zero_iff.mpr hpsqt) hz

theorem core_of_writeHeaderless (h : n.writeHeaderless = .ok b) :
    ∃ core, n.core = .ok core ∧ headerlessLayout.bytes (core, n.head) = b := by
  obtain ⟨core, head, hb, hn⟩ := headerlessReader_eq_ok_iff.mp (writeHeaderless_eq_ok_iff.mp h)
  obtain ⟨hcore, -, rfl⟩ := ofCore_eq_iff.mp hn
  exact ⟨core, hcore, hb⟩

/-- A compact file is written exactly if it has its version and the reader of the rest gives the
network back. -/
theorem writeCompact_eq_ok_iff :
    n.writeCompact = .ok b ↔
      Layout.uint32.At b 0 compactVersion ∧
        ∃ d, compactReader ⟨b, 4⟩ = .ok ({ n with description := "" }, d) := by
  rw [compactReader_eq_ok_iff]
  simp only [ofCore_eq_iff]
  unfold writeCompact
  cases hcore : n.core with
  | error e =>
    constructor
    · rintro ⟨⟩
    · rintro ⟨_, _, _, -, ⟨⟩, -⟩
  | ok core =>
    constructor
    · rintro ⟨rfl⟩
      exact ⟨core, n.transformer.psqt, n.head, rfl, rfl, rfl, rfl⟩
    · rintro ⟨_, _, _, rfl, ⟨rfl⟩, rfl, rfl⟩
      rfl

end SmallNetwork

end ChessEval
