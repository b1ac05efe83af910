import ChessEval.File.NetworkFile
import ChessEval.Proofs.File.Layouts

/-! When readers succeed: what they then have seen and where they stand. -/
namespace ChessEval.File

namespace Reader

variable {α β : Type} {c d : Cursor} {a : α} {x : β} {u : Unit} {l : Layout α}

theorem bind_eq_ok_iff {r : Reader α} {f : α → Reader β} :
    (r >>= f) c = .ok (x, d) ↔ ∃ a e, r c = .ok (a, e) ∧ f a e = .ok (x, d) := by
  change (r c >>= fun y => f y.1 y.2) = _ ↔ _
  cases r c with
  | error e => simp [bind, Except.bind]
  | ok y =>
    constructor
    · exact fun h => ⟨y.1, y.2, rfl, h⟩
    · rintro ⟨_, _, ⟨rfl⟩, h⟩
      exact h

theorem pure_eq_ok_iff {y : α} : (pure y : Reader α) c = .ok (a, d) ↔ a = y ∧ d = c := by
  change Except.ok (y, c) = _ ↔ _
  simp [eq_comm]

theorem take_eq_ok_iff :
    take l c = .ok (a, d) ↔ l.At c.bytes c.place a ∧ d = ⟨c.bytes, c.place + l.size⟩ := by
  unfold take Layout.At
  split <;> simp [*, eq_comm]

theorem takeBytes_eq_ok_iff {n : Nat} {t : ByteArray} :
    takeBytes n c = .ok (t, d) ↔ c.place + n ≤ c.bytes.size ∧
      t = c.bytes.extract c.place (c.place + n) ∧ d = ⟨c.bytes, c.place + n⟩ := by
  unfold takeBytes
  split <;> simp [*, eq_comm]

theorem finish_eq_ok_iff : finish c = .ok (u, d) ↔ c.bytes.size ≤ c.place ∧ d = c := by
  unfold finish
  split <;> rename_i h
  · simp [Nat.not_le.mpr h]
  · simp [Nat.not_lt.mp h, eq_comm]

theorem checkHash_eq_ok_iff {part : Part} {expected : UInt32} :
    checkHash part expected c = .ok (u, d) ↔
      Layout.uint32.At c.bytes c.place expected ∧ d = ⟨c.bytes, c.place + 4⟩ := by
  simp only [checkHash, bind_eq_ok_iff, take_eq_ok_iff]
  constructor
  · rintro ⟨found, e, ⟨hat, rfl⟩, h⟩
    split at h
    next hf => exact ⟨hf ▸ hat, (pure_eq_ok_iff.mp h).2⟩
    next => simp [fail] at h
  · rintro ⟨hat, rfl⟩
    refine ⟨expected, _, ⟨hat, rfl⟩, ?_⟩
    rw [if_pos rfl, pure_eq_ok_iff]
    exact ⟨rfl, rfl⟩

theorem map_fst_eq_ok_iff {r : Reader α} : (r c).map Prod.fst = .ok a ↔ ∃ d, r c = .ok (a, d) := by
  cases r c with
  | error e => simp [Except.map]
  | ok y =>
    constructor
    · rintro ⟨rfl⟩
      exact ⟨y.2, rfl⟩
    · rintro ⟨d, ⟨rfl⟩⟩
      rfl

theorem run_eq_ok_iff {r : Reader α} {b : ByteArray} :
    r.run b = .ok a ↔ ∃ d, r ⟨b, 0⟩ = .ok (a, d) :=
  map_fst_eq_ok_iff

end Reader

/-- A header is the number of the shape, the size of the description and the description. -/
theorem readHeader_eq_ok_iff {c d : Cursor} {text : String} {hash : UInt32} :
    readHeader hash c = .ok (text, d) ↔ ∃ size,
      Layout.uint32.At c.bytes c.place hash ∧ Layout.uint32.At c.bytes (c.place + 4) size ∧
        size ≤ maxDescription ∧ c.place + 8 + size.toNat ≤ c.bytes.size ∧
        text = Text.ofBytes
          (c.bytes.extract (c.place + 8) (c.place + 8 + size.toNat)) ∧
        d = ⟨c.bytes, c.place + 8 + size.toNat⟩ := by
  simp only [readHeader, Reader.bind_eq_ok_iff, Reader.checkHash_eq_ok_iff, Reader.take_eq_ok_iff]
  constructor
  · rintro ⟨_, _, ⟨hhash, rfl⟩, size, _, ⟨hsize, rfl⟩, h⟩
    split at h
    next => simp [Reader.fail] at h
    next hle =>
      simp only [Reader.bind_eq_ok_iff, Reader.takeBytes_eq_ok_iff, Reader.pure_eq_ok_iff] at h
      obtain ⟨_, _, ⟨hend, rfl, rfl⟩, rfl, rfl⟩ := h
      exact ⟨size, hhash, hsize, UInt32.not_lt.mp hle, hend, rfl, rfl⟩
  · rintro ⟨size, hhash, hsize, hle, hend, rfl, rfl⟩
    refine ⟨(), _, ⟨hhash, rfl⟩, size, _, ⟨hsize, rfl⟩, ?_⟩
    rw [if_neg (UInt32.not_lt.mpr hle)]
    simp only [Reader.bind_eq_ok_iff, Reader.takeBytes_eq_ok_iff, Reader.pure_eq_ok_iff]
    exact ⟨_, _, ⟨hend, rfl, rfl⟩, rfl, rfl⟩

end ChessEval.File
