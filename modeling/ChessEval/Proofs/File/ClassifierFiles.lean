import ChessEval.File.ClassifierFile
import ChessEval.Proofs.File.Readers

/-! Classifier files lose nothing: a classifier whose hidden layers have between 1 and 1024 numbers
is read from its file with every bit of its parameters, and a file that is read is the one that its
classifier is written as. -/
namespace ChessEval

open File

theorem File.Layout.lawful_single : single.Lawful :=
  lawful_uint32.through (fun _ => rfl) (fun _ => rfl)

namespace Classifier

variable {c : Classifier} {b : ByteArray} {h1 h2 : Nat}

/-- The numbers of a classifier whose hidden layers have `h1` and `h2` numbers. -/
abbrev Parameters (h1 h2 : Nat) : Type :=
  Vector (Vector Single 10) h1 × Vector Single h1 × Vector (Vector Single h1) h2 ×
    Vector Single h2 × Vector Single h2 × Single

def parametersLayout (h1 h2 : Nat) : Layout (Parameters h1 h2) :=
  ((Layout.single.vector 10).vector h1).pair ((Layout.single.vector h1).pair
    (((Layout.single.vector h1).vector h2).pair ((Layout.single.vector h2).pair
      ((Layout.single.vector h2).pair .single))))

/-- What a file consists of: the magic, the sizes of the layers and the parameters. -/
def fileLayout (h1 h2 : Nat) :
    Layout (Vector UInt8 4 × UInt32 × UInt32 × UInt32 × Parameters h1 h2) :=
  (Layout.uint8.vector 4).pair (Layout.uint32.pair (Layout.uint32.pair (Layout.uint32.pair
    (parametersLayout h1 h2))))

def parameters (c : Classifier) : Parameters c.h1 c.h2 := (c.w1, c.b1, c.w2, c.b2, c.w3, c.b3)

def ofParameters (p : Parameters h1 h2) : Classifier :=
  ⟨h1, h2, p.1, p.2.1, p.2.2.1, p.2.2.2.1, p.2.2.2.2.1, p.2.2.2.2.2⟩

/-- The sizes that a file may give its hidden layers. -/
def Sized (h1 h2 : Nat) : Prop := (1 ≤ h1 ∧ h1 ≤ 1024) ∧ 1 ≤ h2 ∧ h2 ≤ 1024

theorem lawful_parametersLayout (h1 h2 : Nat) : (parametersLayout h1 h2).Lawful :=
  have number := Layout.lawful_single
  ((number.vector 10).vector h1).pair ((number.vector h1).pair (((number.vector h1).vector h2).pair
    ((number.vector h2).pair ((number.vector h2).pair number))))

theorem lawful_fileLayout (h1 h2 : Nat) : (fileLayout h1 h2).Lawful :=
  have word := Layout.lawful_uint32
  (Layout.lawful_uint8.vector 4).pair (word.pair (word.pair (word.pair
    (lawful_parametersLayout h1 h2))))

/-- The file of a classifier with these parameters. -/
def fileOf (p : Parameters h1 h2) : ByteArray :=
  (fileLayout h1 h2).bytes (magic, inputs, UInt32.ofNat h1, UInt32.ofNat h2, p)

theorem write_ofParameters (p : Parameters h1 h2) : (ofParameters p).write = fileOf p := rfl

theorem fileOf_eq_iff {p : Parameters h1 h2} :
    fileOf p = b ↔
      (Layout.uint8.vector 4).At b 0 magic ∧ Layout.uint32.At b 4 inputs ∧
        Layout.uint32.At b 8 (UInt32.ofNat h1) ∧ Layout.uint32.At b 12 (UInt32.ofNat h2) ∧
        (parametersLayout h1 h2).At b 16 p ∧ b.size ≤ 16 + (parametersLayout h1 h2).size := by
  have hsize : (fileLayout h1 h2).size = 16 + (parametersLayout h1 h2).size := by
    change 4 + (4 + (4 + (4 + _))) = _
    omega
  rw [fileOf, (lawful_fileLayout h1 h2).bytes_eq_iff, hsize]
  simp only [fileLayout, Layout.at_pair_iff, Layout.size_uint32, and_assoc]
  rfl

/-- Reads what follows the sizes. -/
def parametersReader (h1 h2 : Nat) : Reader Classifier := do
  let w1 ← Reader.take ((Layout.single.vector 10).vector h1)
  let b1 ← Reader.take (Layout.single.vector h1)
  let w2 ← Reader.take ((Layout.single.vector h1).vector h2)
  let b2 ← Reader.take (Layout.single.vector h2)
  let w3 ← Reader.take (Layout.single.vector h2)
  let b3 ← Reader.take .single
  Reader.finish
  return ⟨h1, h2, w1, b1, w2, b2, w3, b3⟩

theorem parametersReader_eq_ok_iff {e d : Cursor} :
    parametersReader h1 h2 e = .ok (c, d) ↔ ∃ p : Parameters h1 h2,
      (parametersLayout h1 h2).At e.bytes e.place p ∧
        e.bytes.size ≤ e.place + (parametersLayout h1 h2).size ∧ ofParameters p = c ∧
        d = ⟨e.bytes, e.place + (parametersLayout h1 h2).size⟩ := by
  simp only [parametersReader, Reader.bind_eq_ok_iff, Reader.take_eq_ok_iff,
    Reader.finish_eq_ok_iff, Reader.pure_eq_ok_iff]
  simp only [parametersLayout, Layout.size_pair, ← Nat.add_assoc]
  constructor
  · rintro ⟨w1, _, ⟨hw1, rfl⟩, b1, _, ⟨hb1, rfl⟩, w2, _, ⟨hw2, rfl⟩, b2, _, ⟨hb2, rfl⟩,
      w3, _, ⟨hw3, rfl⟩, b3, _, ⟨hb3, rfl⟩, _, _, ⟨hend, rfl⟩, rfl, rfl⟩
    refine ⟨(w1, b1, w2, b2, w3, b3), ?_, hend, rfl, rfl⟩
    simp only [Layout.at_pair_iff]
    exact ⟨hw1, hb1, hw2, hb2, hw3, hb3⟩
  · rintro ⟨⟨w1, b1, w2, b2, w3, b3⟩, hat, hend, rfl, rfl⟩
    simp only [Layout.at_pair_iff] at hat
    obtain ⟨hw1, hb1, hw2, hb2, hw3, hb3⟩ := hat
    exact ⟨w1, _, ⟨hw1, rfl⟩, b1, _, ⟨hb1, rfl⟩, w2, _, ⟨hw2, rfl⟩, b2, _, ⟨hb2, rfl⟩,
      w3, _, ⟨hw3, rfl⟩, b3, _, ⟨hb3, rfl⟩, (), _, ⟨hend, rfl⟩, rfl, rfl⟩

/-- The reader's check of the sizes. -/
theorem not_refused_iff {n u v : UInt32} :
    ¬ (n ≠ inputs ∨ u = 0 ∨ v = 0 ∨ maxHidden < u ∨ maxHidden < v) ↔
      n = inputs ∧ Sized u.toNat v.toNat := by
  have hmax : maxHidden.toNat = 1024 := rfl
  have hzero (w : UInt32) : w = 0 ↔ w.toNat = 0 := UInt32.toNat_inj.symm
  simp only [not_or, not_not, Sized, hzero, UInt32.lt_iff_toNat_lt, hmax]
  refine and_congr_right fun _ => ?_
  omega

theorem exists_word_of_sized (h : Sized h1 h2) : ∃ u v : UInt32, u.toNat = h1 ∧ v.toNat = h2 := by
  obtain ⟨⟨-, hle⟩, -, hle'⟩ := h
  exact ⟨.ofNat h1, .ofNat h2, UInt32.toNat_ofNat_of_lt' (lt_of_le_of_lt hle (by decide)),
    UInt32.toNat_ofNat_of_lt' (lt_of_le_of_lt hle' (by decide))⟩

/-- A file is read exactly if it is the file of a classifier of admitted sizes. -/
theorem read_eq_ok_iff_fileOf : read b = .ok c ↔ ∃ h1 h2, Sized h1 h2 ∧
    ∃ p : Parameters h1 h2, fileOf p = b ∧ ofParameters p = c := by
  simp only [fileOf_eq_iff]
  unfold read
  rw [Reader.run_eq_ok_iff]
  simp only [reader, Reader.bind_eq_ok_iff, Reader.take_eq_ok_iff]
  constructor
  · rintro ⟨d, found, _, ⟨hmagic, rfl⟩, h⟩
    split at h
    next hfound =>
      subst hfound
      simp only [Reader.bind_eq_ok_iff, Reader.take_eq_ok_iff] at h
      obtain ⟨n, _, ⟨hn, rfl⟩, u, _, ⟨hu, rfl⟩, v, _, ⟨hv, rfl⟩, h⟩ := h
      split at h
      next => cases h
      next hshape =>
        obtain ⟨rfl, hsized⟩ := not_refused_iff.mp hshape
        obtain ⟨p, hp, hend, hc, -⟩ := parametersReader_eq_ok_iff.mp h
        refine ⟨u.toNat, v.toNat, hsized, p, ⟨hmagic, hn, ?_, ?_, hp, hend⟩, hc⟩
        · rwa [UInt32.ofNat_toNat]
        · rwa [UInt32.ofNat_toNat]
    next => cases h
  · rintro ⟨h1, h2, hsized, p, ⟨hmagic, hn, hu, hv, hp, hend⟩, hc⟩
    obtain ⟨u, v, rfl, rfl⟩ := exists_word_of_sized hsized
    rw [UInt32.ofNat_toNat] at hu hv
    refine ⟨⟨b, 16 + (parametersLayout u.toNat v.toNat).size⟩, magic, ⟨b, 4⟩, ⟨hmagic, rfl⟩, ?_⟩
    rw [if_pos rfl]
    simp only [Reader.bind_eq_ok_iff, Reader.take_eq_ok_iff]
    refine ⟨inputs, ⟨b, 8⟩, ⟨hn, rfl⟩, u, ⟨b, 12⟩, ⟨hu, rfl⟩, v, ⟨b, 16⟩, ⟨hv, rfl⟩, ?_⟩
    rw [if_neg (not_refused_iff.mpr ⟨rfl, hsized⟩)]
    exact parametersReader_eq_ok_iff.mpr ⟨p, hp, hend, hc, rfl⟩

theorem read_eq_ok_iff : read b = .ok c ↔ Sized c.h1 c.h2 ∧ c.write = b := by
  rw [read_eq_ok_iff_fileOf]
  constructor
  · rintro ⟨h1, h2, hsized, p, rfl, rfl⟩
    exact ⟨hsized, write_ofParameters p⟩
  · rintro ⟨hsized, rfl⟩
    exact ⟨c.h1, c.h2, hsized, c.parameters, rfl, rfl⟩

/-- Classifier files lose nothing. A classifier with between 1 and 1024 numbers in each hidden layer
is read from its file as it was, and a file that is read is the one that its classifier is written
as, and has such sizes. -/
theorem classifier_files_lossless :
    (∀ c : Classifier, (1 ≤ c.h1 ∧ c.h1 ≤ 1024) → (1 ≤ c.h2 ∧ c.h2 ≤ 1024) →
      read c.write = .ok c) ∧
    ∀ (b : ByteArray) (c : Classifier), read b = .ok c →
      c.write = b ∧ (1 ≤ c.h1 ∧ c.h1 ≤ 1024) ∧ 1 ≤ c.h2 ∧ c.h2 ≤ 1024 := by
  constructor
  · intro c h1 h2
    exact read_eq_ok_iff.mpr ⟨⟨h1, h2⟩, rfl⟩
  · intro b c h
    obtain ⟨hsized, hb⟩ := read_eq_ok_iff.mp h
    exact ⟨hb, hsized⟩

/-- A classifier with hidden layers of different sizes and a NaN among its parameters. -/
def sample : Classifier :=
  { h1 := 3
    h2 := 1
    w1 := .replicate 3 (.replicate 10 ⟨0x3F800000⟩)
    b1 := #v[⟨0x7F800001⟩, ⟨0x80000000⟩, ⟨0xFF800000⟩]
    w2 := .replicate 1 #v[⟨1⟩, ⟨2⟩, ⟨3⟩]
    b2 := .replicate 1 .zero
    w3 := .replicate 1 ⟨0xFFC00001⟩
    b3 := ⟨0x7FC00000⟩ }

theorem classifier_files_lossless_of_nan :
    (1 ≤ sample.h1 ∧ sample.h1 ≤ 1024) ∧ (1 ≤ sample.h2 ∧ sample.h2 ≤ 1024) ∧
      sample.b3.value.isNaN ∧ read sample.write = .ok sample := by
  have hread := classifier_files_lossless.1 sample (by decide) (by decide)
  obtain ⟨-, h1, h2⟩ := classifier_files_lossless.2 sample.write sample hread
  exact ⟨h1, h2, by decide +kernel, hread⟩

end Classifier

end ChessEval
