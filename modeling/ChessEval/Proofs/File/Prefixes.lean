import ChessEval.Proofs.File.ClassifierFiles
import ChessEval.Proofs.File.FullFiles

/-! No file is the start of another one. A reader looks no further than the place where it stops: on
bytes that agree as far as they reach it stops at the same place with the same value, or finds that
they end too early. -/
namespace ChessEval

namespace File

variable {α β : Type} {a : α} {x : β} {b t : ByteArray} {c d : Cursor}

/-- As far as both reach, two byte strings have the same bytes: one is the start of the other. -/
def Agree (b c : ByteArray) : Prop := ∀ i < b.size, i < c.size → byteAt b i = byteAt c i

theorem agree_append (b t : ByteArray) : Agree b (b ++ t) := by
  intro i hb ht
  rw [byteAt_eq_getElem hb, byteAt_eq_getElem ht, ByteArray.getElem_append_left hb]

theorem Agree.symm {b c : ByteArray} (h : Agree b c) : Agree c b :=
  fun i hc hb => (h i hb hc).symm

theorem byteAt_extract {i j k : Nat} (hj : j ≤ b.size) (hk : i + k < j) :
    byteAt (b.extract i j) k = byteAt b (i + k) := by
  rw [byteAt_eq_getElem (by rw [ByteArray.size_extract]; omega), byteAt_eq_getElem (by omega),
    ByteArray.getElem_extract]

theorem Agree.extract {b c : ByteArray} {i j : Nat} (h : Agree b c) (hb : j ≤ b.size)
    (hc : j ≤ c.size) : b.extract i j = c.extract i j := by
  apply eq_of_byteAt
  · simp only [ByteArray.size_extract]
    omega
  · intro k hk
    rw [ByteArray.size_extract] at hk
    rw [byteAt_extract hb (by omega), byteAt_extract hc (by omega)]
    exact h _ (by omega) (by omega)

namespace Reader

variable {r : Reader α} {f : α → Reader β}

/-- A reader that looks no further than where it stops. -/
structure Steady (r : Reader α) : Prop where
  moves : ∀ {c a d}, c.place ≤ c.bytes.size → r c = .ok (a, d) →
    d.bytes = c.bytes ∧ c.place ≤ d.place ∧ d.place ≤ c.bytes.size
  same : ∀ {c a d b}, c.place ≤ c.bytes.size → r c = .ok (a, d) → Agree b c.bytes →
    c.place ≤ b.size →
      r ⟨b, c.place⟩ = if d.place ≤ b.size then .ok (a, ⟨b, d.place⟩) else .error .truncated

/-- A reader that succeeds only where the bytes end, and finds on fewer bytes that some are missing
and on more bytes that some are left. -/
structure Closed (r : Reader α) : Prop where
  short : ∀ {c a d b}, c.place ≤ c.bytes.size → r c = .ok (a, d) → Agree b c.bytes →
    c.place ≤ b.size → b.size < c.bytes.size → r ⟨b, c.place⟩ = .error .truncated
  long : ∀ {c a d b}, c.place ≤ c.bytes.size → r c = .ok (a, d) → Agree b c.bytes →
    c.bytes.size < b.size → r ⟨b, c.place⟩ = .error .trailing

theorem bind_of_ok {e : Cursor} (h : r c = .ok (a, e)) : (r >>= f) c = f a e := by
  change (r c >>= fun y => f y.1 y.2) = _
  rw [h]
  rfl

theorem bind_of_error {e : ReadError} (h : r c = .error e) : (r >>= f) c = .error e := by
  change (r c >>= fun y => f y.1 y.2) = _
  rw [h]
  rfl

theorem steady_pure (a : α) : (pure a : Reader α).Steady where
  moves hc h := by
    obtain ⟨-, rfl⟩ := pure_eq_ok_iff.mp h
    exact ⟨rfl, le_rfl, hc⟩
  same _ h _ hb := by
    obtain ⟨rfl, rfl⟩ := pure_eq_ok_iff.mp h
    rw [if_pos hb]
    rfl

theorem steady_fail (e : ReadError) : (fail e : Reader α).Steady where
  moves _ h := by cases h
  same _ h := by cases h

theorem steady_take {l : Layout α} (hl : l.Lawful) : (take l).Steady where
  moves _ h := by
    obtain ⟨hat, rfl⟩ := take_eq_ok_iff.mp h
    exact ⟨rfl, Nat.le_add_right _ _, hat.1⟩
  same {c a d b} _ h hagree _ := by
    obtain ⟨⟨hle, rfl⟩, rfl⟩ := take_eq_ok_iff.mp h
    by_cases hb : c.place + l.size ≤ b.size
    · have hget : l.get b c.place = l.get c.bytes c.place :=
        hl.get_congr fun k hk => hagree _ (by omega) (by omega)
      rw [if_pos hb, ← hget]
      exact if_pos hb
    · rw [if_neg hb]
      exact if_neg hb

theorem steady_takeBytes (n : Nat) : (takeBytes n).Steady where
  moves _ h := by
    obtain ⟨hle, -, rfl⟩ := takeBytes_eq_ok_iff.mp h
    exact ⟨rfl, Nat.le_add_right _ _, hle⟩
  same {c a d b} _ h hagree _ := by
    obtain ⟨hle, rfl, rfl⟩ := takeBytes_eq_ok_iff.mp h
    by_cases hb : c.place + n ≤ b.size
    · rw [if_pos hb, ← hagree.extract hb hle]
      exact if_pos hb
    · rw [if_neg hb]
      exact if_neg hb

theorem Steady.bind (hr : r.Steady) (hf : ∀ a, (f a).Steady) : (r >>= f).Steady where
  moves hc h := by
    obtain ⟨a, e, hra, hfa⟩ := bind_eq_ok_iff.mp h
    obtain ⟨hbytes, hce, he⟩ := hr.moves hc hra
    obtain ⟨hbytes', hed, hd⟩ := (hf a).moves (hbytes ▸ he) hfa
    exact ⟨hbytes'.trans hbytes, hce.trans hed, hbytes ▸ hd⟩
  same {c x d b} hc h hagree hb := by
    obtain ⟨a, e, hra, hfa⟩ := bind_eq_ok_iff.mp h
    obtain ⟨hbytes, -, he⟩ := hr.moves hc hra
    have hed := ((hf a).moves (hbytes ▸ he) hfa).2.1
    have hrb := hr.same hc hra hagree hb
    split at hrb
    next heb =>
      rw [bind_of_ok hrb]
      exact (hf a).same (hbytes ▸ he) hfa (hbytes ▸ hagree) heb
    next heb =>
      rw [bind_of_error hrb, if_neg (by omega)]

theorem Closed.of_bind (hr : r.Steady) (hf : ∀ a, (f a).Closed) : (r >>= f).Closed where
  short {c x d b} hc h hagree hb hlt := by
    obtain ⟨a, e, hra, hfa⟩ := bind_eq_ok_iff.mp h
    obtain ⟨hbytes, -, he⟩ := hr.moves hc hra
    have hrb := hr.same hc hra hagree hb
    split at hrb
    next heb =>
      rw [bind_of_ok hrb]
      exact (hf a).short (hbytes ▸ he) hfa (hbytes ▸ hagree) heb (hbytes ▸ hlt)
    next => exact bind_of_error hrb
  long {c x d b} hc h hagree hlt := by
    obtain ⟨a, e, hra, hfa⟩ := bind_eq_ok_iff.mp h
    obtain ⟨hbytes, -, he⟩ := hr.moves hc hra
    have hrb := hr.same hc hra hagree (hc.trans hlt.le)
    rw [if_pos (he.trans hlt.le)] at hrb
    rw [bind_of_ok hrb]
    exact (hf a).long (hbytes ▸ he) hfa (hbytes ▸ hagree) (hbytes ▸ hlt)

/-- Whatever is read ends with the check that nothing is left. -/
theorem closed_finish (a : α) : (do finish; return a : Reader α).Closed where
  short {c x d b} _ h _ hb hlt := by
    obtain ⟨_, _, hfinish, -⟩ := bind_eq_ok_iff.mp h
    have hend := (finish_eq_ok_iff.mp hfinish).1
    omega
  long {c x d b} hc _ _ hlt := by
    have hfinish : finish ⟨b, c.place⟩ = .error .trailing := if_pos (lt_of_le_of_lt hc hlt)
    exact bind_of_error hfinish

theorem closed_fail (e : ReadError) : (fail e : Reader α).Closed where
  short _ h := by cases h
  long _ h := by cases h

theorem steady_checkHash (part : Part) (expected : UInt32) :
    (checkHash part expected).Steady :=
  (steady_take Layout.lawful_uint32).bind fun found => by
    split
    · exact steady_pure ()
    · exact steady_fail _

theorem Closed.cut {p : Nat} (h : r.Closed) (hp : p ≤ b.size) (ht : t.size ≠ 0)
    (hr : r ⟨b ++ t, p⟩ = .ok (a, d)) : r ⟨b, p⟩ = .error .truncated := by
  have hsize : (b ++ t).size = b.size + t.size := ByteArray.size_append
  have hlt : b.size < (b ++ t).size := by omega
  exact h.short (c := ⟨b ++ t, p⟩) (hp.trans hlt.le) hr (agree_append b t) hp hlt

theorem Closed.extended {p : Nat} (h : r.Closed) (hp : p ≤ b.size) (ht : t.size ≠ 0)
    (hr : r ⟨b, p⟩ = .ok (a, d)) : r ⟨b ++ t, p⟩ = .error .trailing := by
  have hsize : (b ++ t).size = b.size + t.size := ByteArray.size_append
  have hlt : b.size < (b ++ t).size := by omega
  exact h.long (c := ⟨b, p⟩) hp hr (agree_append b t).symm hlt

theorem Closed.run_cut (h : r.Closed) (ht : t.size ≠ 0) (hr : r.run (b ++ t) = .ok a) :
    r.run b = .error .truncated := by
  obtain ⟨d, hd⟩ := run_eq_ok_iff.mp hr
  rw [run, h.cut (Nat.zero_le _) ht hd, Except.map]

theorem Closed.run_extended (h : r.Closed) (ht : t.size ≠ 0) (hr : r.run b = .ok a) :
    r.run (b ++ t) = .error .trailing := by
  obtain ⟨d, hd⟩ := run_eq_ok_iff.mp hr
  rw [run, h.extended (Nat.zero_le _) ht hd, Except.map]

end Reader

open Reader

theorem steady_readHeader (hash : UInt32) : (readHeader hash).Steady :=
  (steady_checkHash .file hash).bind fun _ =>
    (steady_take Layout.lawful_uint32).bind fun size => by
      split
      · exact steady_fail _
      · exact (steady_takeBytes _).bind fun _ => steady_pure _

end File

namespace BigNetwork

open File Reader

theorem steady_readStacks (m : Nat) : (readStacks m).Steady := by
  induction m with
  | zero => exact steady_pure _
  | succ m ih =>
    exact ih.bind fun _ => (steady_checkHash .stack _).bind fun _ =>
      (steady_take Layout.lawful_stack).bind fun _ => steady_pure _

theorem closed_reader : reader.Closed :=
  .of_bind (steady_take Layout.lawful_uint32) fun found => by
    split
    · exact .of_bind (steady_readHeader _) fun _ => .of_bind (steady_checkHash _ _) fun _ =>
        .of_bind (steady_take (Layout.lawful_transformer _ _ _)) fun _ =>
          .of_bind (steady_readStacks _) fun _ => closed_finish _
    · exact closed_fail _

end BigNetwork

namespace SmallNetwork

open File Reader

theorem closed_fullReader : fullReader.Closed :=
  .of_bind (steady_readHeader _) fun _ => .of_bind (steady_checkHash _ _) fun _ =>
    .of_bind (steady_take (Layout.lawful_transformer _ _ _)) fun _ =>
      .of_bind (steady_checkHash _ _) fun _ =>
        .of_bind (steady_take (Layout.lawful_head _)) fun _ => closed_finish _

theorem closed_compactReader : compactReader.Closed :=
  .of_bind (steady_checkHash _ _) fun _ => .of_bind (steady_take lawful_coreLayout) fun _ =>
    .of_bind (steady_take ((Layout.lawful_int32.vector 1).vector 768)) fun _ =>
      .of_bind (steady_take (Layout.lawful_head _)) fun _ => closed_finish _

theorem uint32At_append (hs : 4 ≤ b.size) : Layout.uint32At (b ++ t) 0 = Layout.uint32At b 0 :=
  Layout.lawful_uint32.get_congr fun k hk => by
    rw [Layout.size_uint32] at hk
    have hle : b.size ≤ (b ++ t).size := by rw [ByteArray.size_append]; omega
    exact (agree_append b t (0 + k) (by omega) (by omega)).symm

/-- The format is told by the first four bytes alone. -/
theorem formatOf_append (hs : 4 ≤ b.size) : formatOf (b ++ t) = formatOf b := by
  rw [formatOf, formatOf, uint32At_append hs]

theorem read_of_short (hs : b.size < 4) : read b = .error .truncated := by
  have htake : Reader.take .uint32 ⟨b, 0⟩ = .error .truncated := if_neg (Nat.not_le.mpr hs)
  rw [read, htake]

theorem read_eq (hs : 4 ≤ b.size) :
    read b = match formatOf b with
      | .full => (fullReader ⟨b, 4⟩).map Prod.fst
      | .compact => (compactReader ⟨b, 4⟩).map Prod.fst
      | .headerless =>
        if b.size = headerlessSize then headerlessReader.run b
        else .error (.badVersion (Layout.uint32At b 0) File.version) := by
  have htake : Reader.take .uint32 ⟨b, 0⟩ = .ok (Layout.uint32At b 0, ⟨b, 4⟩) :=
    Reader.take_eq_ok_iff.mpr ⟨⟨hs, rfl⟩, rfl⟩
  rw [read, htake, formatOf]
  dsimp only
  split_ifs <;> rfl

/-- Why the start `b` of an accepted file is refused, given the format of the whole file. -/
def shortError (f : Format) (b : ByteArray) : ReadError :=
  if f = .headerless ∧ 4 ≤ b.size then .badVersion (Layout.uint32At b 0) File.version
  else .truncated

/-- Why a file that goes on behind the accepted file `b` is refused. -/
def longError (b : ByteArray) : ReadError :=
  if formatOf b = .headerless then .badVersion (Layout.uint32At b 0) File.version else .trailing

theorem read_cut {n : SmallNetwork} (ht : t.size ≠ 0) (h : read (b ++ t) = .ok n) :
    read b = .error (shortError (formatOf (b ++ t)) b) := by
  by_cases hs : 4 ≤ b.size
  · obtain ⟨-, hread⟩ := read_eq_ok_iff.mp h
    rw [formatOf_append hs] at hread
    rw [read_eq hs, shortError, formatOf_append hs]
    cases hf : formatOf b with
    | full =>
      rw [hf] at hread
      obtain ⟨d, hd⟩ := hread
      simp [closed_fullReader.cut hs ht hd, Except.map]
    | compact =>
      rw [hf] at hread
      obtain ⟨d, hd⟩ := hread
      simp [closed_compactReader.cut hs ht hd, Except.map]
    | headerless =>
      rw [hf] at hread
      have hsize := hread.1
      rw [ByteArray.size_append] at hsize
      have hne : b.size ≠ headerlessSize := by omega
      simp [hne, hs]
  · rw [read_of_short (Nat.not_le.mp hs), shortError, if_neg fun h => hs h.2]

theorem read_extended {n : SmallNetwork} (ht : t.size ≠ 0) (h : read b = .ok n) :
    read (b ++ t) = .error (longError b) := by
  obtain ⟨hs, hread⟩ := read_eq_ok_iff.mp h
  have hle : 4 ≤ (b ++ t).size := by rw [ByteArray.size_append]; omega
  rw [read_eq hle, longError, formatOf_append hs, uint32At_append hs]
  cases hf : formatOf b with
  | full =>
    rw [hf] at hread
    obtain ⟨d, hd⟩ := hread
    simp [closed_fullReader.extended hs ht hd, Except.map]
  | compact =>
    rw [hf] at hread
    obtain ⟨d, hd⟩ := hread
    simp [closed_compactReader.extended hs ht hd, Except.map]
  | headerless =>
    rw [hf] at hread
    have hne : (b ++ t).size ≠ headerlessSize := by
      rw [ByteArray.size_append, hread.1]
      omega
    rw [ByteArray.size_append] at hne
    simp [hne]

end SmallNetwork

namespace Classifier

open File Reader

theorem closed_parametersReader (h1 h2 : Nat) : (parametersReader h1 h2).Closed :=
  have number := Layout.lawful_single
  .of_bind (steady_take ((number.vector 10).vector h1)) fun _ =>
    .of_bind (steady_take (number.vector h1)) fun _ =>
      .of_bind (steady_take ((number.vector h1).vector h2)) fun _ =>
        .of_bind (steady_take (number.vector h2)) fun _ =>
          .of_bind (steady_take (number.vector h2)) fun _ =>
            .of_bind (steady_take number) fun _ => closed_finish _

theorem closed_reader : reader.Closed :=
  have word := Layout.lawful_uint32
  .of_bind (steady_take (Layout.lawful_uint8.vector 4)) fun found => by
    split
    · refine .of_bind (steady_take word) fun n => .of_bind (steady_take word) fun u =>
        .of_bind (steady_take word) fun v => ?_
      split
      · exact closed_fail _
      · exact closed_parametersReader _ _
    · exact closed_fail _

end Classifier

/-- No accepted byte string is the start of another one. An accepted file that is cut short has bytes
missing, and one that goes on has bytes left over; only headerless files are refused for their size
instead, as files of no version, unless not even four bytes are left of them. -/
theorem File.accepted_prefix_free :
    (∀ (b t : ByteArray) (n : BigNetwork), t.size ≠ 0 →
      (BigNetwork.read (b ++ t) = .ok n → BigNetwork.read b = .error .truncated) ∧
      (BigNetwork.read b = .ok n → BigNetwork.read (b ++ t) = .error .trailing)) ∧
    (∀ (b t : ByteArray) (n : SmallNetwork), t.size ≠ 0 →
      (SmallNetwork.read (b ++ t) = .ok n →
        SmallNetwork.read b = .error (SmallNetwork.shortError (SmallNetwork.formatOf (b ++ t)) b)) ∧
      (SmallNetwork.read b = .ok n →
        SmallNetwork.read (b ++ t) = .error (SmallNetwork.longError b))) ∧
    (∀ (b t : ByteArray) (c : Classifier), t.size ≠ 0 →
      (Classifier.read (b ++ t) = .ok c → Classifier.read b = .error .truncated) ∧
      (Classifier.read b = .ok c → Classifier.read (b ++ t) = .error .trailing)) := by
  refine ⟨fun b t n ht => ⟨?_, ?_⟩, fun b t n ht => ⟨?_, ?_⟩, fun b t c ht => ⟨?_, ?_⟩⟩
  · exact BigNetwork.closed_reader.run_cut ht
  · exact BigNetwork.closed_reader.run_extended ht
  · exact SmallNetwork.read_cut ht
  · exact SmallNetwork.read_extended ht
  · exact Classifier.closed_reader.run_cut ht
  · exact Classifier.closed_reader.run_extended ht

theorem File.exists_cut {b : ByteArray} {k : Nat} (h : k < b.size) :
    ∃ p t : ByteArray, p ++ t = b ∧ p.size = k ∧ t.size ≠ 0 := by
  refine ⟨b.extract 0 k, b.extract k b.size, by simp [h.le], ?_, ?_⟩
  · rw [ByteArray.size_extract]
    omega
  · rw [ByteArray.size_extract]
    omega

/-- A big network's file cut within its first four bytes, a headerless one cut behind them, and files
of three kinds with one more byte. -/
theorem File.accepted_prefix_free_of_samples :
    let big := BigNetwork.sample "Größe"
    let small := SmallNetwork.sample [-128, -127] 0
    let headerless := SmallNetwork.sampleHeaderless [-128, -127]
    let compact := SmallNetwork.sampleCompact [-128, -127] 0
    let classifier := Classifier.sample
    let more : ByteArray := ⟨#[7]⟩
    more.size ≠ 0 ∧
    (∃ b t, t.size ≠ 0 ∧ b.size = 3 ∧ BigNetwork.read (b ++ t) = .ok big ∧
      BigNetwork.read b = .error .truncated) ∧
    (∃ b t, t.size ≠ 0 ∧ b.size = 4 ∧ SmallNetwork.read (b ++ t) = .ok small ∧
      SmallNetwork.read b = .error (.badVersion (Layout.uint32At b 0) version)) ∧
    (SmallNetwork.read headerless = .ok small ∧ SmallNetwork.read (headerless ++ more) =
      .error (.badVersion (Layout.uint32At headerless 0) version)) ∧
    (SmallNetwork.read compact = .ok small ∧
      SmallNetwork.read (compact ++ more) = .error .trailing) ∧
    Classifier.read classifier.write = .ok classifier ∧
      Classifier.read (classifier.write ++ more) = .error .trailing := by
  intro big small headerless compact classifier more
  have hmore : more.size ≠ 0 := by decide
  obtain ⟨hbig, hsmall, hclassifier⟩ := accepted_prefix_free
  have hwrite := SmallNetwork.writeHeaderless_sample [-128, -127]
  have hopen : ¬ small.OpensWithVersion :=
    mt SmallNetwork.opensWithVersion_sample_iff.mp (by decide)
  have hformat := not_not.mp (mt (SmallNetwork.opensWithVersion_iff hwrite).mpr hopen)
  have hread := SmallNetwork.read_of_headerless hwrite hformat
  refine ⟨hmore, ?_, ?_, ⟨hread, ?_⟩, ?_, ?_⟩
  · have hread : BigNetwork.read big.write = .ok big :=
      (BigNetwork.write_eq_iff.mp ⟨rfl, by decide⟩).1
    obtain ⟨_, -, -, hfile⟩ := BigNetwork.read_eq_ok_iff.mp hread
    have hsize := ((fullFile_eq_iff BigNetwork.lawful_partsLayout).mp hfile).1.1
    rw [Layout.size_uint32] at hsize
    obtain ⟨b, t, hb, hs, ht⟩ := exists_cut (b := big.write) (k := 3) (by omega)
    rw [← hb] at hread
    exact ⟨b, t, ht, hs, hread, (hbig b t big ht).1 hread⟩
  · have hsize : 4 < headerless.size := by
      rw [SmallNetwork.headerless_size hwrite]
      decide
    obtain ⟨b, t, hb, hs, ht⟩ := exists_cut hsize
    have hcut := (hsmall b t small ht).1 (hb ▸ hread)
    rw [SmallNetwork.shortError, if_pos ⟨hb ▸ hformat, hs.ge⟩] at hcut
    exact ⟨b, t, ht, hs, hb ▸ hread, hcut⟩
  · have hlong := (hsmall headerless more small hmore).2 hread
    rwa [SmallNetwork.longError, if_pos hformat] at hlong
  · have hcompact := SmallNetwork.writeCompact_eq_ok_iff.mp
      (SmallNetwork.writeCompact_sample [-128, -127] 0)
    have hf := SmallNetwork.formatOf_eq_compact_iff.mpr hcompact.1.2
    have hread : SmallNetwork.read compact = .ok small :=
      (SmallNetwork.read_of_compact hf).mpr hcompact
    have hlong := (hsmall compact more small hmore).2 hread
    have htagged : SmallNetwork.formatOf compact ≠ .headerless := by rw [hf]; exact nofun
    rw [SmallNetwork.longError, if_neg htagged] at hlong
    exact ⟨hread, hlong⟩
  · have hread : Classifier.read classifier.write = .ok classifier :=
      Classifier.read_eq_ok_iff.mpr ⟨⟨⟨by decide, by decide⟩, by decide, by decide⟩, rfl⟩
    exact ⟨hread, (hclassifier classifier.write more classifier hmore).2 hread⟩

end ChessEval
