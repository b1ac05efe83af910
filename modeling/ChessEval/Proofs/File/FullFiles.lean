import ChessEval.Proofs.File.Formats

/-! The full formats of both networks lose nothing: what is read is what was written, and a file whose
description is text is the one that its network is written as. -/
namespace ChessEval

open File

namespace Text

theorem ofBytes_toUTF8 (s : String) : ofBytes s.toUTF8 = s := by
  have h : String.fromUTF8? s.toUTF8 = some s := dif_pos s.isValidUTF8
  rw [ofBytes, h]

theorem toUTF8_ofBytes {b : ByteArray} (h : b.IsValidUTF8) : (ofBytes b).toUTF8 = b := by
  have hs : String.fromUTF8? b = some ⟨b, h⟩ := dif_pos h
  rw [ofBytes, hs]
  rfl

end Text

namespace File.Layout

variable {α : Type} {l : Layout α} {b t : ByteArray} {i n : Nat} {v : Vector α n} {x : α}

/-- Bytes as a vector. -/
def vectorOf (t : ByteArray) : Vector UInt8 t.size := ⟨t.data, rfl⟩

theorem put_vectorOf (b t : ByteArray) : (uint8.vector t.size).put b (vectorOf t) = b ++ t := by
  have hpush (l : List UInt8) : l.foldl ByteArray.push b = b ++ ⟨l.toArray⟩ := by
    induction l using List.reverseRecOn with
    | nil => exact ByteArray.append_empty.symm
    | append_singleton l x ih =>
      rw [List.foldl_append, ih]
      apply ByteArray.ext
      simp
  calc (uint8.vector t.size).put b (vectorOf t) = t.data.foldl ByteArray.push b := rfl
    _ = t.data.toList.foldl ByteArray.push b := (Array.foldl_toList _).symm
    _ = b ++ t := hpush _

theorem at_vectorOf_iff :
    (uint8.vector t.size).At b i (vectorOf t) ↔
      i + t.size ≤ b.size ∧ b.extract i (i + t.size) = t := by
  have hsize : (uint8.vector t.size).size = t.size := Nat.mul_one _
  rw [At, hsize]
  refine and_congr_right fun hle => ?_
  have hget : ∀ k : Fin t.size, ((uint8.vector t.size).get b i).get k = byteAt b (i + k) := by
    intro k
    rw [get_get_vector]
    exact congrArg (fun j => byteAt b (i + j)) (Nat.mul_one _)
  have hbyte (k : Nat) (hk : k < t.size) :
      byteAt (b.extract i (i + t.size)) k = byteAt b (i + k) := by
    rw [byteAt_eq_getElem (by rw [ByteArray.size_extract]; omega), byteAt_eq_getElem (by omega),
      ByteArray.getElem_extract]
  constructor
  · intro h
    apply eq_of_byteAt (by rw [ByteArray.size_extract]; omega)
    intro k hk
    rw [hbyte k hk, ← hget ⟨k, hk⟩, h, byteAt_eq_getElem hk]
    rfl
  · intro h
    apply Vector.ext
    intro k hk
    have := hget ⟨k, hk⟩
    rw [← hbyte k hk, h, byteAt_eq_getElem hk] at this
    exact this

theorem at_vector_push_iff :
    (l.vector (n + 1)).At b i (v.push x) ↔ (l.vector n).At b i v ∧ l.At b (i + n * l.size) x := by
  have hpair : (l.vector (n + 1)).At b i (v.push x) ↔
      ((l.vector n).pair l).At b i (v, x) := by
    rw [vector_succ]
    have hpush : ∀ w : Vector α n × α, w.1.push w.2 = v.push x ↔ w = (v, x) := by
      rintro ⟨w, y⟩
      rw [Vector.push_eq_push, Prod.mk.injEq, and_comm]
    exact and_congr_right fun _ => hpush _
  exact hpair.trans at_pair_iff

end File.Layout

namespace File

variable {α : Type} {l : Layout α} {a : α} {b t : ByteArray} {c d : Cursor} {text : String}
  {hash : UInt32}

/-- What a full file opens with, up to its first part: the version, the number of the shape, the
size of the description and the description. -/
def headerLayout (size : Nat) : Layout (UInt32 × UInt32 × UInt32 × Vector UInt8 size) :=
  Layout.uint32.pair (Layout.uint32.pair (Layout.uint32.pair (Layout.uint8.vector size)))

/-- The full file with some bytes for its description and a value for its parts. -/
def fullFile (hash : UInt32) (t : ByteArray) (l : Layout α) (a : α) : ByteArray :=
  ((headerLayout t.size).pair l).bytes
    ((version, hash, UInt32.ofNat t.size, Layout.vectorOf t), a)

/-- The bytes that a full file has for its description. -/
def descriptionBytes (b : ByteArray) : ByteArray :=
  b.extract 12 (12 + (Layout.uint32At b 8).toNat)

theorem lawful_headerLayout (size : Nat) : (headerLayout size).Lawful :=
  have word := Layout.lawful_uint32
  word.pair (word.pair (word.pair (Layout.lawful_uint8.vector size)))

theorem put_header (hash : UInt32) (s : String) :
    header hash s = (headerLayout s.toUTF8.size).bytes
      (version, hash, UInt32.ofNat s.toUTF8.size, Layout.vectorOf s.toUTF8) :=
  (Layout.put_vectorOf _ _).symm

/-- The places of a full file's parts. -/
theorem fullFile_eq_iff (hl : l.Lawful) :
    fullFile hash t l a = b ↔
      Layout.uint32.At b 0 version ∧ Layout.uint32.At b 4 hash ∧
        Layout.uint32.At b 8 (UInt32.ofNat t.size) ∧
        (12 + t.size ≤ b.size ∧ b.extract 12 (12 + t.size) = t) ∧ l.At b (12 + t.size) a ∧
        b.size ≤ 12 + t.size + l.size := by
  have hsize : (headerLayout t.size).size = 12 + t.size := by
    change 4 + (4 + (4 + t.size * 1)) = _
    omega
  rw [fullFile, ((lawful_headerLayout t.size).pair hl).bytes_eq_iff]
  simp only [Layout.at_pair_iff, Layout.size_pair, hsize, Nat.zero_add, and_assoc]
  simp only [headerLayout, Layout.at_pair_iff, Layout.size_uint32, Nat.zero_add, Nat.reduceAdd,
    Layout.at_vectorOf_iff, and_assoc]

theorem toNat_ofNat_size (ht : t.size ≤ 1048576) : (UInt32.ofNat t.size).toNat = t.size :=
  UInt32.toNat_ofNat_of_lt' (lt_of_le_of_lt ht (by decide))

/-- A header that is read is the number of the shape, the size of some bytes and these bytes, of
which the description is the text. -/
theorem readHeader_eq_ok_iff_bytes :
    readHeader hash c = .ok (text, d) ↔ ∃ t : ByteArray, t.size ≤ 1048576 ∧
      Text.ofBytes t = text ∧ Layout.uint32.At c.bytes c.place hash ∧
        Layout.uint32.At c.bytes (c.place + 4) (UInt32.ofNat t.size) ∧
        (c.place + 8 + t.size ≤ c.bytes.size ∧
          c.bytes.extract (c.place + 8) (c.place + 8 + t.size) = t) ∧
        d = ⟨c.bytes, c.place + 8 + t.size⟩ := by
  have hmax : maxDescription.toNat = 1048576 := rfl
  rw [readHeader_eq_ok_iff]
  constructor
  · rintro ⟨size, hhash, hsize, hle, hend, rfl, rfl⟩
    rw [UInt32.le_iff_toNat_le, hmax] at hle
    obtain ⟨t, ht⟩ : ∃ t, c.bytes.extract (c.place + 8) (c.place + 8 + size.toNat) = t := ⟨_, rfl⟩
    have hts : t.size = size.toNat := by
      rw [← ht, ByteArray.size_extract]
      omega
    rw [ht]
    refine ⟨t, hts.le.trans hle, rfl, hhash, ?_, ?_, ?_⟩
    · rwa [hts, UInt32.ofNat_toNat]
    · rw [hts]
      exact ⟨hend, ht⟩
    · rw [hts]
  · rintro ⟨t, hle, rfl, hhash, hsize, ⟨hend, ht⟩, rfl⟩
    have htoNat := toNat_ofNat_size hle
    refine ⟨_, hhash, hsize, ?_, ?_⟩
    · rwa [UInt32.le_iff_toNat_le, htoNat]
    · rw [htoNat, ht]
      exact ⟨hend, rfl, rfl⟩

theorem descriptionBytes_fullFile (hl : l.Lawful) (ht : t.size ≤ 1048576) :
    descriptionBytes (fullFile hash t l a) = t := by
  obtain ⟨-, -, hsize, ⟨-, hbytes⟩, -⟩ := (fullFile_eq_iff hl).mp (Eq.refl (fullFile hash t l a))
  have hat : Layout.uint32At (fullFile hash t l a) 8 = UInt32.ofNat t.size := hsize.2
  rw [descriptionBytes, hat, toNat_ofNat_size ht, hbytes]

/-- Bytes that are text are the only bytes of their description. -/
theorem fullFile_toUTF8_eq_iff (hl : l.Lawful) :
    fullFile hash text.toUTF8 l a = b ∧ text.utf8ByteSize ≤ 1048576 ↔
      (∃ t : ByteArray, t.size ≤ 1048576 ∧ Text.ofBytes t = text ∧ fullFile hash t l a = b) ∧
        (descriptionBytes b).IsValidUTF8 := by
  constructor
  · rintro ⟨rfl, hle⟩
    refine ⟨⟨text.toUTF8, hle, Text.ofBytes_toUTF8 text, rfl⟩, ?_⟩
    rw [descriptionBytes_fullFile (t := text.toUTF8) hl hle]
    exact text.isValidUTF8
  · rintro ⟨⟨t, hle, rfl, rfl⟩, hvalid⟩
    rw [descriptionBytes_fullFile hl hle] at hvalid
    have ht := Text.toUTF8_ofBytes hvalid
    refine ⟨by rw [ht], ?_⟩
    change (Text.ofBytes t).toUTF8.size ≤ _
    rwa [ht]

end File

namespace File.Layout

theorem lawful_transformer (F : FeatureSet) (width buckets : Nat) :
    (transformer F width buckets).Lawful :=
  ((lawful_int16.vector width).pair (((lawful_int16.vector width).vector F.inputs).pair
    ((lawful_int32.vector buckets).vector F.inputs))).through (fun _ => rfl) (fun _ => rfl)

theorem lawful_affine (inputs outputs : Nat) : (affine inputs outputs).Lawful :=
  ((lawful_int32.vector outputs).pair ((lawful_int8.vector (padded inputs)).vector outputs)).through
    (fun _ => rfl) (fun _ => rfl)

theorem lawful_stack : stack.Lawful :=
  ((lawful_affine 512 16).pair ((lawful_affine 15 32).pair (lawful_affine 32 1))).through
    (fun _ => rfl) (fun _ => rfl)

end File.Layout

namespace BigNetwork

variable {n : BigNetwork} {b : ByteArray} {c d : Cursor} {m : Nat}

/-- An output network behind the number of its shape. -/
def stackLayout : Layout (UInt32 × LayerStack) := Layout.uint32.pair Layout.stack

/-- What a full file consists of behind its description. -/
def partsLayout : Layout (UInt32 × BigTransformer × Vector (UInt32 × LayerStack) 8) :=
  Layout.uint32.pair ((Layout.transformer .withThreats 256 8).pair (stackLayout.vector 8))

def tagged (v : Vector LayerStack m) : Vector (UInt32 × LayerStack) m := v.map (LayerStack.hash, ·)

def parts (n : BigNetwork) : UInt32 × BigTransformer × Vector (UInt32 × LayerStack) 8 :=
  (transformerHash, n.transformer, tagged n.layerStacks)

theorem lawful_partsLayout : partsLayout.Lawful :=
  Layout.lawful_uint32.pair ((Layout.lawful_transformer .withThreats 256 8).pair
    ((Layout.lawful_uint32.pair Layout.lawful_stack).vector 8))

theorem size_stackLayout : stackLayout.size = 4 + Layout.stack.size := rfl

theorem size_partsLayout : partsLayout.size =
    4 + ((Layout.transformer .withThreats 256 8).size + 8 * stackLayout.size) := rfl

/-- The output networks that are read stand one behind the other, each behind its number. -/
theorem readStacks_eq_ok_iff {v : Vector LayerStack m} (hc : c.place ≤ c.bytes.size) :
    readStacks m c = .ok (v, d) ↔ (stackLayout.vector m).At c.bytes c.place (tagged v) ∧
      d = ⟨c.bytes, c.place + m * stackLayout.size⟩ := by
  induction m generalizing d with
  | zero =>
    have hempty : ∀ w : Vector LayerStack 0, w = v := fun w => Vector.eq_empty.trans Vector.eq_empty.symm
    have hat : (stackLayout.vector 0).At c.bytes c.place (tagged v) := by
      refine ⟨?_, Vector.eq_empty.trans Vector.eq_empty.symm⟩
      simpa [Layout.vector] using hc
    rw [readStacks, Reader.pure_eq_ok_iff]
    simp [hat, hempty]
  | succ m ih =>
    obtain ⟨w, s, rfl⟩ : ∃ w s, v = Vector.push w s := ⟨_, _, (Vector.push_pop_back v).symm⟩
    have htagged : tagged (w.push s) = (tagged w).push (LayerStack.hash, s) := Vector.map_push
    rw [htagged, Layout.at_vector_push_iff, stackLayout, Layout.at_pair_iff, ← stackLayout]
    simp only [readStacks, Reader.bind_eq_ok_iff, ih, Reader.checkHash_eq_ok_iff,
      Reader.take_eq_ok_iff, Reader.pure_eq_ok_iff, Vector.push_eq_push]
    constructor
    · rintro ⟨_, _, ⟨hw, rfl⟩, _, _, ⟨hhash, rfl⟩, _, _, ⟨hs, rfl⟩, ⟨rfl, rfl⟩, rfl⟩
      refine ⟨⟨hw, hhash, hs⟩, ?_⟩
      simp only [Cursor.mk.injEq, size_stackLayout, true_and]
      ring
    · rintro ⟨⟨hw, hhash, hs⟩, rfl⟩
      refine ⟨_, _, ⟨hw, rfl⟩, (), _, ⟨hhash, rfl⟩, _, _, ⟨hs, rfl⟩, ⟨rfl, rfl⟩, ?_⟩
      simp only [Cursor.mk.injEq, size_stackLayout, true_and]
      ring

theorem write_eq (n : BigNetwork) :
    n.write = fullFile fileHash n.description.toUTF8 partsLayout n.parts := by
  have hstacks (b : ByteArray) :
      n.layerStacks.foldl putStack b = (stackLayout.vector 8).put b (tagged n.layerStacks) := by
    change _ = (n.layerStacks.map (LayerStack.hash, ·)).foldl stackLayout.put b
    rw [Vector.foldl_map]
    rfl
  rw [write, hstacks, put_header]
  rfl

/-- A full file is read as the network of which it holds the parts, behind some bytes of which the
description is the text. -/
theorem read_eq_ok_iff : read b = .ok n ↔ ∃ t : ByteArray, t.size ≤ 1048576 ∧
    Text.ofBytes t = n.description ∧ fullFile fileHash t partsLayout n.parts = b := by
  simp only [fullFile_eq_iff lawful_partsLayout]
  unfold read
  rw [Reader.run_eq_ok_iff]
  simp only [reader, Reader.bind_eq_ok_iff, Reader.take_eq_ok_iff, Layout.size_uint32, Nat.zero_add]
  constructor
  · rintro ⟨_, found, _, ⟨hversion, rfl⟩, h⟩
    split at h
    next hfound =>
      subst hfound
      simp only [Reader.bind_eq_ok_iff, readHeader_eq_ok_iff_bytes, Reader.checkHash_eq_ok_iff,
        Reader.take_eq_ok_iff, Reader.finish_eq_ok_iff, Reader.pure_eq_ok_iff] at h
      obtain ⟨text, _, ⟨t, ht, rfl, hhash, hsize, hbytes, rfl⟩, _, _, ⟨hthash, rfl⟩, transformer, _,
        ⟨htransformer, rfl⟩, v, _, hv, _, _, ⟨hend, rfl⟩, rfl, -⟩ := h
      rw [readStacks_eq_ok_iff htransformer.1] at hv
      obtain ⟨hv, rfl⟩ := hv
      exact ⟨t, ht, rfl, hversion, hhash, hsize, hbytes, Layout.at_pair_iff.mpr ⟨hthash,
        Layout.at_pair_iff.mpr ⟨htransformer, hv⟩⟩, by simpa [size_partsLayout, Nat.add_assoc] using hend⟩
    next => cases h
  · rintro ⟨t, ht, htext, hversion, hhash, hsize, hbytes, hparts, hend⟩
    obtain ⟨hthash, hparts⟩ := Layout.at_pair_iff.mp hparts
    obtain ⟨htransformer, hv⟩ := Layout.at_pair_iff.mp hparts
    refine ⟨⟨b, 12 + t.size + 4 + (Layout.transformer .withThreats 256 8).size +
      8 * stackLayout.size⟩, version, ⟨b, 4⟩, ⟨hversion, rfl⟩, ?_⟩
    rw [if_pos rfl]
    simp only [Reader.bind_eq_ok_iff, readHeader_eq_ok_iff_bytes, Reader.checkHash_eq_ok_iff,
      Reader.take_eq_ok_iff, Reader.finish_eq_ok_iff, Reader.pure_eq_ok_iff]
    exact ⟨_, _, ⟨t, ht, htext, hhash, hsize, hbytes, rfl⟩, (), _, ⟨hthash, rfl⟩, _, _,
      ⟨htransformer, rfl⟩, _, _, (readStacks_eq_ok_iff htransformer.1).mpr ⟨hv, rfl⟩, (), _,
      ⟨by simpa [size_partsLayout, Nat.add_assoc] using hend, rfl⟩, rfl, rfl⟩

/-- A file whose description is text is read as a network exactly if it is the network's file. -/
theorem write_eq_iff : n.write = b ∧ n.description.utf8ByteSize ≤ 1048576 ↔
    read b = .ok n ∧ (descriptionBytes b).IsValidUTF8 := by
  rw [write_eq, read_eq_ok_iff]
  exact fullFile_toUTF8_eq_iff lawful_partsLayout

/-- A network of extreme weights. -/
def sample (description : String) : BigNetwork :=
  ⟨description, ⟨.replicate 256 (-7), .replicate _ (.replicate 256 (-32768)),
    .replicate _ (.replicate 8 (-2147483648))⟩, .replicate 8 ⟨layer, layer, layer⟩⟩
where
  layer {inputs outputs : Nat} : Affine inputs outputs :=
    ⟨.replicate outputs (-1), .replicate outputs (.replicate (padded inputs) (-128))⟩

end BigNetwork

namespace SmallNetwork

variable {n : SmallNetwork} {b : ByteArray}

/-- What a full file consists of behind its description. -/
def partsLayout : Layout (UInt32 × SmallTransformer × UInt32 × Head 64) :=
  Layout.uint32.pair ((Layout.transformer .pieceSquare 64 1).pair
    (Layout.uint32.pair (Layout.head 64)))

def parts (n : SmallNetwork) : UInt32 × SmallTransformer × UInt32 × Head 64 :=
  (transformerHash, n.transformer, Head.hash 64, n.head)

theorem lawful_partsLayout : partsLayout.Lawful :=
  Layout.lawful_uint32.pair ((Layout.lawful_transformer .pieceSquare 64 1).pair
    (Layout.lawful_uint32.pair (Layout.lawful_head 64)))

theorem size_partsLayout : partsLayout.size =
    4 + ((Layout.transformer .pieceSquare 64 1).size + (4 + (Layout.head 64).size)) := rfl

theorem write_eq (n : SmallNetwork) :
    n.write = fullFile fileHash n.description.toUTF8 partsLayout n.parts := by
  rw [write, put_header]
  rfl

theorem fullReader_eq_ok_iff :
    (Layout.uint32.At b 0 File.version ∧ ∃ d, fullReader ⟨b, 4⟩ = .ok (n, d)) ↔
      ∃ t : ByteArray, t.size ≤ 1048576 ∧ Text.ofBytes t = n.description ∧
        fullFile fileHash t partsLayout n.parts = b := by
  simp only [fullFile_eq_iff lawful_partsLayout]
  simp only [fullReader, Reader.bind_eq_ok_iff, readHeader_eq_ok_iff_bytes,
    Reader.checkHash_eq_ok_iff, Reader.take_eq_ok_iff, Reader.finish_eq_ok_iff,
    Reader.pure_eq_ok_iff]
  constructor
  · rintro ⟨hversion, _, _, _, ⟨t, ht, rfl, hhash, hsize, hbytes, rfl⟩, _, _, ⟨hthash, rfl⟩, _, _,
      ⟨htransformer, rfl⟩, _, _, ⟨hhhash, rfl⟩, _, _, ⟨hhead, rfl⟩, _, _, ⟨hend, rfl⟩, rfl, -⟩
    exact ⟨t, ht, rfl, hversion, hhash, hsize, hbytes, Layout.at_pair_iff.mpr ⟨hthash,
      Layout.at_pair_iff.mpr ⟨htransformer, Layout.at_pair_iff.mpr ⟨hhhash, hhead⟩⟩⟩,
      by simpa [size_partsLayout, Nat.add_assoc] using hend⟩
  · rintro ⟨t, ht, htext, hversion, hhash, hsize, hbytes, hparts, hend⟩
    obtain ⟨hthash, hparts⟩ := Layout.at_pair_iff.mp hparts
    obtain ⟨htransformer, hparts⟩ := Layout.at_pair_iff.mp hparts
    obtain ⟨hhhash, hhead⟩ := Layout.at_pair_iff.mp hparts
    exact ⟨hversion, _, _, _, ⟨t, ht, htext, hhash, hsize, hbytes, rfl⟩, (), _, ⟨hthash, rfl⟩, _, _,
      ⟨htransformer, rfl⟩, (), _, ⟨hhhash, rfl⟩, _, _, ⟨hhead, rfl⟩, (), _,
      ⟨by simpa [size_partsLayout, Nat.add_assoc] using hend, rfl⟩, rfl, rfl⟩

theorem formatOf_eq_full_iff : formatOf b = .full ↔ Layout.uint32At b 0 = File.version := by
  unfold formatOf
  grind

/-- A full file whose description is text is read as a network exactly if it is the network's
file. -/
theorem write_eq_iff : n.write = b ∧ n.description.utf8ByteSize ≤ 1048576 ↔
    (read b = .ok n ∧ formatOf b = .full) ∧ (descriptionBytes b).IsValidUTF8 := by
  have hread : read b = .ok n ∧ formatOf b = .full ↔
      Layout.uint32.At b 0 File.version ∧ ∃ d, fullReader ⟨b, 4⟩ = .ok (n, d) := by
    rw [read_eq_ok_iff]
    constructor
    · rintro ⟨⟨hs, hr⟩, hf⟩
      rw [hf] at hr
      exact ⟨⟨hs, formatOf_eq_full_iff.mp hf⟩, hr⟩
    · rintro ⟨⟨hs, hv⟩, hr⟩
      have hf := formatOf_eq_full_iff.mpr hv
      rw [hf]
      exact ⟨⟨hs, hr⟩, rfl⟩
  rw [write_eq, hread, fullReader_eq_ok_iff]
  exact fullFile_toUTF8_eq_iff lawful_partsLayout

end SmallNetwork

/-- Full files lose nothing. What is written for a network is read as the same network, and a file
that is read as a full one is the file that its network is written as, if its description is
text. -/
theorem full_formats_lossless :
    (∀ n : BigNetwork, n.description.utf8ByteSize ≤ 1048576 → BigNetwork.read n.write = .ok n) ∧
    (∀ n : SmallNetwork, n.description.utf8ByteSize ≤ 1048576 →
      SmallNetwork.read n.write = .ok n) ∧
    (∀ b n, BigNetwork.read b = .ok n → (descriptionBytes b).IsValidUTF8 → n.write = b) ∧
    (∀ b n, SmallNetwork.read b = .ok n → SmallNetwork.formatOf b = .full →
      (descriptionBytes b).IsValidUTF8 → n.write = b) := by
  refine ⟨fun n hn => ?_, fun n hn => ?_, fun b n hread htext => ?_, fun b n hread hf htext => ?_⟩
  · exact (BigNetwork.write_eq_iff.mp ⟨rfl, hn⟩).1
  · exact (SmallNetwork.write_eq_iff.mp ⟨rfl, hn⟩).1.1
  · exact (BigNetwork.write_eq_iff.mpr ⟨hread, htext⟩).1
  · exact (SmallNetwork.write_eq_iff.mpr ⟨⟨hread, hf⟩, htext⟩).1

/-- Both sizes with a description that has more bytes than characters. -/
theorem full_formats_lossless_of_description :
    let big := BigNetwork.sample "Größe"
    let small := { SmallNetwork.sample [-128, 33] 5 with description := "Größe" }
    "Größe".length < "Größe".utf8ByteSize ∧
      (∃ b, BigNetwork.read b = .ok big ∧ (descriptionBytes b).IsValidUTF8 ∧ big.write = b) ∧
      ∃ b, SmallNetwork.read b = .ok small ∧ SmallNetwork.formatOf b = .full ∧
        (descriptionBytes b).IsValidUTF8 ∧ small.write = b := by
  intro big small
  have hsize : "Größe".utf8ByteSize ≤ 1048576 := by decide
  have hbig := full_formats_lossless.1 big hsize
  have hsmall := full_formats_lossless.2.1 small hsize
  obtain ⟨-, htext⟩ := BigNetwork.write_eq_iff.mp ⟨Eq.refl big.write, hsize⟩
  obtain ⟨⟨-, hfull⟩, htext'⟩ := SmallNetwork.write_eq_iff.mp ⟨Eq.refl small.write, hsize⟩
  refine ⟨by decide, ⟨_, hbig, htext, ?_⟩, ⟨_, hsmall, hfull, htext', ?_⟩⟩
  · exact full_formats_lossless.2.2.1 _ _ hbig htext
  · exact full_formats_lossless.2.2.2 _ _ hsmall hfull htext'

end ChessEval
