import ChessEval.Proofs.File.CompactFiles

/-! Which format a small network's file is read in, and what of a network comes back from its
file. -/
namespace ChessEval

open File

namespace SmallNetwork

variable {n : SmallNetwork} {b : ByteArray} {c d : Cursor}

/-- The formats of a small network's file. -/
inductive Format where
  | full
  | compact
  | headerless
  deriving DecidableEq

/-- The format that a file is taken to be in, by its first four bytes. -/
def formatOf (b : ByteArray) : Format :=
  if Layout.uint32At b 0 = File.version then .full
  else if Layout.uint32At b 0 = compactVersion then .compact
  else .headerless

theorem formatOf_eq_compact_iff :
    formatOf b = .compact ↔ Layout.uint32At b 0 = compactVersion := by
  have hne : compactVersion ≠ File.version := by decide
  unfold formatOf
  grind

theorem read_eq_ok_iff :
    read b = .ok n ↔ 4 ≤ b.size ∧
      match formatOf b with
      | .full => ∃ d, fullReader ⟨b, 4⟩ = .ok (n, d)
      | .compact => ∃ d, compactReader ⟨b, 4⟩ = .ok (n, d)
      | .headerless => b.size = headerlessSize ∧ headerlessReader.run b = .ok n := by
  by_cases hs : 4 ≤ b.size
  · have htake : Reader.take .uint32 ⟨b, 0⟩ = .ok (Layout.uint32At b 0, ⟨b, 4⟩) :=
      Reader.take_eq_ok_iff.mpr ⟨⟨hs, rfl⟩, rfl⟩
    rw [read, htake, formatOf]
    simp only [hs, true_and]
    split
    · exact Reader.map_fst_eq_ok_iff
    split
    · exact Reader.map_fst_eq_ok_iff
    split <;> simp [*]
  · have htake : Reader.take .uint32 ⟨b, 0⟩ = .error .truncated := if_neg hs
    simp [read, htake, hs]

theorem read_of_compact (hf : formatOf b = .compact) :
    read b = .ok n ↔
      Layout.uint32.At b 0 compactVersion ∧ ∃ d, compactReader ⟨b, 4⟩ = .ok (n, d) := by
  rw [read_eq_ok_iff, hf]
  constructor
  · rintro ⟨hs, hr⟩
    exact ⟨⟨hs, formatOf_eq_compact_iff.mp hf⟩, hr⟩
  · rintro ⟨⟨hs, -⟩, hr⟩
    exact ⟨hs, hr⟩

/-- A network read in a format with weights of one byte has no description. -/
theorem unnamed_of_read (h : read b = .ok n) (hf : formatOf b ≠ .full) :
    { n with description := "" } = n := by
  cases hb : formatOf b with
  | full => exact absurd hb hf
  | compact =>
    obtain ⟨_, _, _, -, rfl⟩ := compactReader_eq_ok_iff.mp ((read_of_compact hb).mp h)
    rfl
  | headerless =>
    rw [read_eq_ok_iff, hb] at h
    obtain ⟨_, _, -, rfl⟩ := headerlessReader_eq_ok_iff.mp h.2.2
    rfl

/-! Sizes tell the formats apart. -/

theorem size_transformer : (Layout.transformer .pieceSquare 64 1).size = 101504 := rfl

theorem fullReader_size (h : fullReader c = .ok (n, d)) : 101504 ≤ c.bytes.size := by
  simp only [fullReader, Reader.bind_eq_ok_iff, Reader.checkHash_eq_ok_iff,
    Reader.take_eq_ok_iff] at h
  obtain ⟨text, e, htext, _, _, ⟨-, rfl⟩, t, _, ⟨hat, -⟩, -⟩ := h
  obtain ⟨_, -, -, -, -, -, rfl⟩ := readHeader_eq_ok_iff.mp htext
  have hsize := hat.1
  rw [size_transformer] at hsize
  exact (Nat.le_add_left _ _).trans hsize

theorem size_headerlessLayout : headerlessLayout.size = headerlessSize := rfl

theorem size_compactLayout : compactLayout.size = 52554 := rfl

theorem headerless_size (h : n.writeHeaderless = .ok b) : b.size = headerlessSize := by
  obtain ⟨core, -, hb⟩ := core_of_writeHeaderless h
  obtain ⟨⟨hle, -⟩, hge⟩ := lawful_headerlessLayout.bytes_eq_iff.mp hb
  rw [size_headerlessLayout] at hle hge
  omega

/-- A byte string of a headerless file's size is no file of another format. -/
theorem read_ne_ok (hs : b.size = headerlessSize) (hf : formatOf b ≠ .headerless) :
    read b ≠ .ok n := by
  intro h
  cases hb : formatOf b with
  | full =>
    rw [read_eq_ok_iff, hb] at h
    obtain ⟨-, d, hd⟩ := h
    have hlarge : 101504 ≤ headerlessSize := hs ▸ fullReader_size hd
    exact absurd hlarge (by decide)
  | compact =>
    obtain ⟨_, _, _, hbytes, -⟩ := compactReader_eq_ok_iff.mp ((read_of_compact hb).mp h)
    have hlarge := (lawful_compactLayout.bytes_eq_iff.mp hbytes).1.1
    rw [size_compactLayout, hs] at hlarge
    exact absurd hlarge (by decide)
  | headerless => exact hf hb

/-! The first four bytes of a headerless file are codes of weights. -/

theorem code_of_at {c : WeightCodes} {i : Nat} (h : WeightCodes.layout.At b i c) (k : Fin 6)
    (side : Fin 2) (n s : Fin 64) :
    WeightCodes.code c k side n s =
      (byteAt b (i + k * 8192 + side * 4096 + n * 64 + s)).toInt8 := by
  rw [← h.2]
  simp only [WeightCodes.code, WeightCodes.layout, Layout.get_get_vector]
  exact congrArg (fun j => (byteAt b (_ + j)).toInt8) (Nat.mul_one _)

/-- The weight of a feature for the first sum. The first features are the perspective's own pawns
from the first rank on, and a headerless file opens with these weights. -/
def opening (n : SmallNetwork) (i : Nat) : Int16 := (n.transformer.row i).values.toList.headD 0

/-- Whether the codes of the first weights are the bytes of a version. -/
def OpensWithVersion (n : SmallNetwork) : Prop :=
  (List.range 4).map n.opening ∈ [[32, 47, -13, 122], [33, 47, -13, 122]]

theorem opening_eq_weight (n : SmallNetwork) (s : Fin 64) :
    n.opening s = WeightCodes.weight n.transformer.weights 0 0 0 s := by
  have hs : (s : Nat) < FeatureSet.pieceSquare.inputs := lt_trans s.isLt (by decide)
  have hfeature : WeightCodes.feature 0 0 s = ⟨s, hs⟩ := by simp [WeightCodes.feature]
  have hhead (v : Vector Int16 64) : v.toList.headD 0 = v.get 0 := by
    simp [List.headD_eq_head?_getD, List.head?_eq_getElem?, Vector.get_eq_getElem]
  unfold opening Transformer.row WeightCodes.weight
  rw [dif_pos hs, hfeature]
  exact hhead _

theorem opening_eq_iff (h : n.writeHeaderless = .ok b) {v : Int16} {c : UInt8}
    (hv : WeightCode.encodeWith? (WeightCodes.exceptions 0 0) v = some c.toInt8) (s : Fin 64) :
    n.opening s = v ↔ byteAt b s = c := by
  obtain ⟨core, hcore, hb⟩ := core_of_writeHeaderless h
  have hat := (Layout.at_pair_iff.mp (Layout.at_pair_iff.mp
    (lawful_headerlessLayout.bytes_eq_iff.mp hb).1).1).1
  have hcode : WeightCodes.code core.1 0 0 0 s = (byteAt b s).toInt8 := by
    simpa using code_of_at hat 0 0 0 s
  have hweight : core.1.decode = n.transformer.weights := (core_eq_ok_iff.mp hcore).1
  rw [opening_eq_weight, ← hweight, WeightCodes.weight_decode, hcode,
    ← (WeightCodes.proper_exceptions 0 0).encodeWith?_eq_some_iff, hv, Option.some.injEq]
  constructor
  · intro hc
    rw [← UInt8.toUInt8_toInt8 c, hc, UInt8.toUInt8_toInt8]
  · rintro rfl
    rfl

theorem formatOf_ne_headerless_iff :
    formatOf b ≠ .headerless ↔
      Layout.uint32At b 0 = File.version ∨ Layout.uint32At b 0 = compactVersion := by
  unfold formatOf
  grind

theorem opensWithVersion_iff (h : n.writeHeaderless = .ok b) :
    n.OpensWithVersion ↔ formatOf b ≠ .headerless := by
  have hfull : Layout.bytes32 File.version = (32, 47, 243, 122) := by decide
  have hcompact : Layout.bytes32 compactVersion = (33, 47, 243, 122) := by decide
  have h32 : n.opening 0 = 32 ↔ byteAt b 0 = 32 := opening_eq_iff h (by decide) 0
  have h33 : n.opening 0 = 33 ↔ byteAt b 0 = 33 := opening_eq_iff h (by decide) 0
  have h47 : n.opening 1 = 47 ↔ byteAt b 1 = 47 := opening_eq_iff h (by decide) 1
  have h243 : n.opening 2 = -13 ↔ byteAt b 2 = 243 := opening_eq_iff h (by decide) 2
  have h122 : n.opening 3 = 122 ↔ byteAt b 3 = 122 := opening_eq_iff h (by decide) 3
  rw [formatOf_ne_headerless_iff, Layout.uint32At_eq_iff, Layout.uint32At_eq_iff, hfull, hcompact]
  simp [OpensWithVersion, List.range, List.range.loop, h32, h33, h47, h243, h122]

theorem read_of_headerless (h : n.writeHeaderless = .ok b) (hf : formatOf b = .headerless) :
    read b = .ok { n with description := "" } := by
  have hs := headerless_size h
  rw [read_eq_ok_iff, hf]
  exact ⟨hs ▸ by decide, hs, writeHeaderless_eq_ok_iff.mp h⟩

/-! Networks of which the first codes are given. -/

/-- Codes that open with some bytes and are zero behind them, and biases of the lowest byte. -/
def openingCore (l : List Int8) : WeightCodes × Vector Int8 64 :=
  (.ofFn fun k => .ofFn fun side => .ofFn fun n => .ofFn fun s =>
    if k.val = 0 ∧ side.val = 0 ∧ n.val = 0 then l.getD s 0 else 0, .replicate 64 (-128))

def sampleHead : Head 64 := ⟨.replicate 64 300, .replicate 64 (-300), -7⟩

def sample (l : List Int8) (psqt : Int32) : SmallNetwork :=
  ofCore (openingCore l) (.replicate 768 (.replicate 1 psqt)) sampleHead

def sampleCompact (l : List Int8) (psqt : Int32) : ByteArray :=
  compactLayout.bytes
    (compactVersion, fileHash, openingCore l, .replicate 768 (.replicate 1 psqt), sampleHead)

def sampleHeaderless (l : List Int8) : ByteArray :=
  headerlessLayout.bytes (openingCore l, sampleHead)

theorem writeCompact_sample (l : List Int8) (psqt : Int32) :
    (sample l psqt).writeCompact = .ok (sampleCompact l psqt) :=
  writeCompact_eq_ok_iff.mpr (compactReader_eq_ok_iff.mpr ⟨_, _, _, rfl, rfl⟩)

theorem writeHeaderless_sample (l : List Int8) :
    (sample l 0).writeHeaderless = .ok (sampleHeaderless l) :=
  writeHeaderless_eq_ok_iff.mpr (headerlessReader_eq_ok_iff.mpr ⟨_, _, rfl, rfl⟩)

theorem opening_sample (l : List Int8) (psqt : Int32) (s : Fin 64) :
    (sample l psqt).opening s =
      WeightCode.decodeWith (WeightCodes.exceptions 0 0) (l.getD s 0) := by
  have hcode : WeightCodes.code (openingCore l).1 0 0 0 s = l.getD s 0 := by
    simp [WeightCodes.code, openingCore]
  rw [← hcode, ← WeightCodes.weight_decode, opening_eq_weight]
  rfl

theorem opensWithVersion_sample_iff {l : List Int8} {psqt : Int32} :
    (sample l psqt).OpensWithVersion ↔
      (List.range 4).map
          (fun i => WeightCode.decodeWith (WeightCodes.exceptions 0 0) (l.getD i 0)) ∈
        [[32, 47, -13, 122], [33, 47, -13, 122]] := by
  have hmap : (List.range 4).map (sample l psqt).opening =
      (List.range 4).map fun i =>
        WeightCode.decodeWith (WeightCodes.exceptions 0 0) (l.getD i 0) := by
    apply List.map_congr_left
    intro i hi
    exact opening_sample l psqt ⟨i, lt_trans (List.mem_range.mp hi) (by decide)⟩
  rw [OpensWithVersion, hmap]

/-- Compact and headerless files lose nothing. What is written as a compact file is read as the
same numbers, and a file that is read as a compact or a headerless one is the file that its network
is written as in that format. -/
theorem compact_formats_lossless :
    (∀ n b, writeCompact n = .ok b → read b = .ok { n with description := "" }) ∧
    (∀ b n, read b = .ok n → formatOf b = .compact → n.writeCompact = .ok b) ∧
    (∀ b n, read b = .ok n → formatOf b = .headerless → n.writeHeaderless = .ok b) := by
  refine ⟨fun n b h => ?_, fun b n h hf => ?_, fun b n h hf => ?_⟩
  · have hc := writeCompact_eq_ok_iff.mp h
    exact (read_of_compact (formatOf_eq_compact_iff.mpr hc.1.2)).mpr hc
  · rw [writeCompact_eq_ok_iff, unnamed_of_read h (by simp [hf])]
    exact (read_of_compact hf).mp h
  · rw [writeHeaderless_eq_ok_iff, unnamed_of_read h (by simp [hf])]
    rw [read_eq_ok_iff, hf] at h
    exact h.2.2

/-- Both formats at a network with weights that no byte holds. -/
theorem compact_formats_lossless_of_exceptions :
    (sample [-128, -127] 0).opening 0 = -200 ∧
    (sample [-128, -127] (-9)).writeCompact = .ok (sampleCompact [-128, -127] (-9)) ∧
    read (sampleCompact [-128, -127] (-9)) = .ok (sample [-128, -127] (-9)) ∧
    formatOf (sampleCompact [-128, -127] (-9)) = .compact ∧
    read (sampleHeaderless [-128, -127]) = .ok (sample [-128, -127] 0) ∧
    formatOf (sampleHeaderless [-128, -127]) = .headerless ∧
    (sample [-128, -127] 0).writeHeaderless = .ok (sampleHeaderless [-128, -127]) := by
  have hw := writeCompact_sample [-128, -127] (-9)
  have hr := compact_formats_lossless.1 _ _ hw
  have hc := formatOf_eq_compact_iff.mpr (writeCompact_eq_ok_iff.mp hw).1.2
  have hopen : ¬ (sample [-128, -127] 0).OpensWithVersion :=
    mt opensWithVersion_sample_iff.mp (by decide)
  have hf := not_not.mp (mt (opensWithVersion_iff (writeHeaderless_sample [-128, -127])).mpr hopen)
  have hh := read_of_headerless (writeHeaderless_sample [-128, -127]) hf
  exact ⟨opening_sample [-128, -127] 0 0, compact_formats_lossless.2.1 _ _ hr hc, hr, hc, hh, hf,
    compact_formats_lossless.2.2 _ _ hh hf⟩

/-- A headerless file gives its network back unless the codes of the first weights are the bytes of
a version: such a file is taken for one of another format and refused. -/
theorem read_writeHeaderless (h : n.writeHeaderless = .ok b) :
    (¬ n.OpensWithVersion → read b = .ok { n with description := "" }) ∧
    (n.OpensWithVersion → ∃ e, read b = .error e) := by
  rw [opensWithVersion_iff h, not_not]
  constructor
  · exact read_of_headerless h
  · intro hf
    cases hread : read b with
    | ok m => exact absurd hread (read_ne_ok (headerless_size h) hf)
    | error e => exact ⟨e, rfl⟩

/-- The same weights behind an exceptional one and behind the weight that makes them a version. -/
theorem read_writeHeaderless_of_samples :
    ((sample [-128, 47, -13, 122] 0).writeHeaderless =
        .ok (sampleHeaderless [-128, 47, -13, 122]) ∧
      ¬ (sample [-128, 47, -13, 122] 0).OpensWithVersion ∧
      read (sampleHeaderless [-128, 47, -13, 122]) = .ok (sample [-128, 47, -13, 122] 0)) ∧
    ((sample [33, 47, -13, 122] 0).writeHeaderless = .ok (sampleHeaderless [33, 47, -13, 122]) ∧
      (sample [33, 47, -13, 122] 0).OpensWithVersion ∧
      ∃ e, read (sampleHeaderless [33, 47, -13, 122]) = .error e) := by
  have h := writeHeaderless_sample [-128, 47, -13, 122]
  have h' := writeHeaderless_sample [33, 47, -13, 122]
  have hopen : ¬ (sample [-128, 47, -13, 122] 0).OpensWithVersion :=
    mt opensWithVersion_sample_iff.mp (by decide)
  have hopen' : (sample [33, 47, -13, 122] 0).OpensWithVersion :=
    opensWithVersion_sample_iff.mpr (by decide)
  exact ⟨⟨h, hopen, (read_writeHeaderless h).1 hopen⟩,
    h', hopen', (read_writeHeaderless h').2 hopen'⟩

/-- Not every headerless file that is written is read as its network again. -/
theorem headerless_files_not_all_read :
    ¬ ∀ (n : SmallNetwork) (b : ByteArray), n.writeHeaderless = .ok b →
      read b = .ok { n with description := "" } := by
  intro hall
  have h := writeHeaderless_sample [33, 47, -13, 122]
  have hopen : (sample [33, 47, -13, 122] 0).OpensWithVersion :=
    opensWithVersion_sample_iff.mpr (by decide)
  exact read_ne_ok (headerless_size h) ((opensWithVersion_iff h).mp hopen) (hall _ _ h)

end SmallNetwork

end ChessEval
