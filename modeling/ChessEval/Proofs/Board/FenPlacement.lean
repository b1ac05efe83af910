import ChessEval.Board.Fen
import ChessEval.Proofs.Board.WellFormed
import ChessEval.Proofs.Text.Grammar

/-! The placement field of a FEN: which ranks are accepted, and where their letters stand. -/
namespace ChessEval

open Position

variable {p q : Position} {c : Color} {k : Piece} {s : Square} {x : Char} {cs r : List Char}
  {rs : List (List Char)} {rank file : Nat}

theorem Except.of_bind_eq_ok {ε α β : Type} {x : Except ε α} {f : α → Except ε β} {b : β}
    (h : x.bind f = .ok b) : ∃ a, x = .ok a ∧ f a = .ok b := by
  cases x with
  | error e => cases h
  | ok a => exact ⟨a, rfl, h⟩

theorem Bitboard.card_insert {b : Bitboard} (hs : s ∉ b) : (b.insert s).card = b.card + 1 := by
  have hl : (s :: b.toList).Nodup := List.nodup_cons.mpr ⟨by rwa [mem_toList], nodup_toList b⟩
  have hperm : (s :: b.toList).Perm (b.insert s).toList := perm_toList hl fun t => by
    rw [List.mem_cons, mem_toList, mem_insert]
  exact hperm.length_eq.symm

theorem Position.count_put (hs : s ∉ p.pieces c k) (c' : Color) (k' : Piece) :
    (p.put ⟨c, k, s⟩).count c' k' = p.count c' k' + if c' = c ∧ k' = k then 1 else 0 := by
  rw [count, pieces_put]
  split
  · next h =>
    obtain ⟨rfl, rfl⟩ := h
    rw [Bitboard.card_insert hs, count]
  · rfl

theorem Square.at?_eq_some_iff : at? rank file = some s ↔ s.rank.val = rank ∧ s.file.val = file := by
  rw [at?, Option.dite_none_right_eq_some]
  constructor
  · rintro ⟨h, hs⟩
    obtain rfl := Option.some.inj hs
    exact ⟨congrArg Fin.val (rank_ofCoords _ _), congrArg Fin.val (file_ofCoords _ _)⟩
  · rintro ⟨rfl, rfl⟩
    refine ⟨⟨s.rank.isLt, s.file.isLt⟩, congrArg some (eq_of_coords ?_ ?_)⟩
    · exact rank_ofCoords _ _
    · exact file_ofCoords _ _

namespace Piece

theorem coloredLetter_inj {c' : Color} {k' : Piece} :
    k.coloredLetter c = k'.coloredLetter c' ↔ c = c' ∧ k = k' := by
  cases c <;> cases k <;> cases c' <;> cases k' <;> decide

theorem isDigit_coloredLetter (k : Piece) (c : Color) : (k.coloredLetter c).isDigit = false := by
  cases k <;> cases c <;> decide

theorem digit?_coloredLetter (k : Piece) (c : Color) : Text.digit? (k.coloredLetter c) = none := by
  cases k <;> cases c <;> decide

theorem ofLetter?_coloredLetter (k : Piece) (c : Color) :
    ofLetter? (k.coloredLetter c) = some k := by
  cases k <;> cases c <;> decide

theorem color_coloredLetter (k : Piece) (c : Color) :
    (if (k.coloredLetter c).isUpper then Color.white else .black) = c := by
  cases k <;> cases c <;> decide

/-- A kind is named by its letter in either case, and by no other character. -/
theorem ofLetter?_eq_some_iff : ofLetter? x = some k ↔ ∃ c, x = k.coloredLetter c := by
  constructor
  · intro h
    have hx : k.letter = x.toLower := by simpa using List.find?_some h
    unfold Char.toLower at hx
    split at hx
    · have hval : k.letter.val = x.val + ('a'.val - 'A'.val) := congrArg Char.val hx
      have hcase : (k.coloredLetter .white).val = k.letter.val - ('a'.val - 'A'.val) := by
        cases k <;> decide
      exact ⟨.white, Char.ext (by rw [hcase, hval, UInt32.add_sub_cancel])⟩
    · exact ⟨.black, hx.symm⟩
  · rintro ⟨c, rfl⟩
    exact ofLetter?_coloredLetter k c

/-- The letters of the pieces in a FEN. -/
theorem mem_letters_iff : x ∈ "pnbrqkPNBRQK".toList ↔ ∃ k c, x = coloredLetter k c := by
  constructor
  · intro h
    simp only [String.reduceToList, List.mem_cons, List.not_mem_nil, or_false] at h
    rcases h with rfl | rfl | rfl | rfl | rfl | rfl | rfl | rfl | rfl | rfl | rfl | rfl
    exacts [⟨.pawn, .black, rfl⟩, ⟨.knight, .black, rfl⟩, ⟨.bishop, .black, rfl⟩,
      ⟨.rook, .black, rfl⟩, ⟨.queen, .black, rfl⟩, ⟨.king, .black, rfl⟩, ⟨.pawn, .white, rfl⟩,
      ⟨.knight, .white, rfl⟩, ⟨.bishop, .white, rfl⟩, ⟨.rook, .white, rfl⟩, ⟨.queen, .white, rfl⟩,
      ⟨.king, .white, rfl⟩]
  · rintro ⟨k, c, rfl⟩
    cases k <;> cases c <;> decide

end Piece

namespace Fen

/-- The files that a character of a rank takes: as many as a digit says, or one. -/
def width (x : Char) : Nat := if x.isDigit = true then x.toNat - '0'.toNat else 1

def files : List Char → Nat
  | [] => 0
  | x :: cs => width x + files cs

@[simp] theorem files_nil : files [] = 0 := rfl

@[simp] theorem files_cons (x : Char) (cs : List Char) : files (x :: cs) = width x + files cs := rfl

@[simp] theorem width_coloredLetter (k : Piece) (c : Color) : width (k.coloredLetter c) = 1 := by
  rw [width, k.isDigit_coloredLetter, if_neg Bool.false_ne_true]

/-- The characters of a rank in a FEN. -/
def IsMark (x : Char) : Prop := x.isDigit = true ∨ x ∈ "pnbrqkPNBRQK".toList

/-- The text of a rank: digits and letters that take at most the eight files. -/
structure IsRank (cs : List Char) : Prop where
  marks : ∀ x ∈ cs, IsMark x
  files_le : files cs ≤ 8

/-- Reading a rank's text from some file on takes one position to another: a digit skips files, a
letter puts a piece on the next file. -/
inductive Reads (rank : Nat) : List Char → Nat → Position → Position → Prop
  | done {file : Nat} {p : Position} : file ≤ 8 → Reads rank [] file p p
  | skip {x : Char} {cs : List Char} {file : Nat} {p q : Position} : x.isDigit = true →
    Reads rank cs (file + width x) p q → Reads rank (x :: cs) file p q
  | put {c : Color} {k : Piece} {s : Square} {cs : List Char} {file : Nat} {p q : Position} :
    s.rank.val + rank = 7 → s.file.val = file → Reads rank cs (file + 1) (p.put ⟨c, k, s⟩) q →
    Reads rank (k.coloredLetter c :: cs) file p q

theorem placeRank_of_reads (h : Reads rank cs file p q) : placeRank rank cs file p = .ok q := by
  induction h with
  | done hle => rw [placeRank, if_neg (by omega)]
  | skip hx _ ih => rw [placeRank, Text.digit?_eq, if_pos hx, ← ih, width, if_pos hx]
  | @put c k s cs file p q hrank hfile _ ih =>
    have hat : Square.at? (7 - rank) (file % 256) = some s := by
      rw [Square.at?_eq_some_iff]
      omega
    rw [placeRank, k.digit?_coloredLetter, k.ofLetter?_coloredLetter]
    simp only [hat, k.color_coloredLetter]
    exact ih

theorem file_le_of_placeRank (h : placeRank rank cs file p = .ok q) : file ≤ 8 := by
  induction cs generalizing file p with
  | nil =>
    rw [placeRank] at h
    split at h
    · cases h
    · omega
  | cons c cs ih =>
    rw [placeRank] at h
    split at h
    · have := ih h
      omega
    · split at h
      · cases h
      · split at h
        · cases h
        · have := ih h
          omega

theorem reads_of_placeRank (hr : rank < 8) (h : placeRank rank cs file p = .ok q) :
    Reads rank cs file p q := by
  induction cs generalizing file p with
  | nil =>
    rw [placeRank] at h
    split at h
    · cases h
    · obtain rfl := Except.ok.inj h
      exact .done (by omega)
  | cons x cs ih =>
    by_cases hx : x.isDigit = true
    · rw [placeRank, Text.digit?_eq, if_pos hx] at h
      exact .skip hx (ih (by rwa [width, if_pos hx]))
    · rw [placeRank, Text.digit?_eq, if_neg hx] at h
      cases hk : Piece.ofLetter? x with
      | none =>
        rw [hk] at h
        cases h
      | some k =>
        obtain ⟨c, rfl⟩ := Piece.ofLetter?_eq_some_iff.mp hk
        rw [hk] at h
        simp only [k.color_coloredLetter] at h
        split at h
        · cases h
        · next s hs =>
          -- the place of a piece keeps eight bits of the file, which lose nothing up to here
          have hle := file_le_of_placeRank h
          obtain ⟨hrank, hfile⟩ := Square.at?_eq_some_iff.mp hs
          exact .put (by omega) (by omega) (ih h)

namespace Reads

theorem files_le (h : Reads rank cs file p q) : file + files cs ≤ 8 := by
  induction h with
  | done hle => simpa using hle
  | skip _ _ ih => simpa [Nat.add_assoc] using ih
  | put _ _ _ ih => simpa [Nat.add_assoc] using ih

theorem isMark (h : Reads rank cs file p q) : ∀ x ∈ cs, IsMark x := by
  induction h with
  | done => simp
  | skip hx _ ih => exact List.forall_mem_cons.mpr ⟨Or.inl hx, ih⟩
  | put _ _ _ ih =>
    exact List.forall_mem_cons.mpr ⟨Or.inr (Piece.mem_letters_iff.mpr ⟨_, _, rfl⟩), ih⟩


/-- The letters of the rank stand on its squares, each on the file that the text before it leaves
open, and nothing else changes. -/
theorem mem_pieces_iff (h : Reads rank cs file p q) : s ∈ q.pieces c k ↔ s ∈ p.pieces c k ∨
    ∃ before after, cs = before ++ k.coloredLetter c :: after ∧ s.rank.val + rank = 7 ∧
      s.file.val = file + files before := by
  induction h with
  | done => simp
  | @skip x cs file p q hx _ ih =>
    rw [ih]
    refine or_congr_right ⟨?_, ?_⟩
    · rintro ⟨before, after, rfl, hrank, hfile⟩
      exact ⟨x :: before, after, rfl, hrank, by rw [hfile, files_cons, Nat.add_assoc]⟩
    · rintro ⟨before, after, hcs, hrank, hfile⟩
      cases before with
      | nil =>
        obtain rfl := (List.cons.inj hcs).1
        rw [k.isDigit_coloredLetter] at hx
        cases hx
      | cons y before =>
        obtain ⟨rfl, rfl⟩ := List.cons.inj hcs
        exact ⟨before, after, rfl, hrank, by rw [hfile, files_cons, Nat.add_assoc]⟩
  | @put c' k' t cs file p q hrank hfile _ ih =>
    have hput : s ∈ (p.put ⟨c', k', t⟩).pieces c k ↔
        s ∈ p.pieces c k ∨ (c = c' ∧ k = k' ∧ s = t) := by
      rw [pieces_put]
      split
      · next hck => simp [hck, or_comm]
      · next hck =>
        rw [or_iff_left]
        tauto
    -- a letter is the first one of the text, or stands behind it and has it in its own `before`
    rw [ih, hput, or_assoc]
    refine or_congr_right ⟨?_, ?_⟩
    · rintro (⟨rfl, rfl, rfl⟩ | ⟨before, after, rfl, hs, hf⟩)
      · exact ⟨[], cs, rfl, hrank, hfile⟩
      · refine ⟨k'.coloredLetter c' :: before, after, rfl, hs, ?_⟩
        rw [hf, files_cons, width_coloredLetter, Nat.add_assoc]
    · rintro ⟨before, after, hcs, hs, hf⟩
      cases before with
      | nil =>
        obtain ⟨rfl, rfl⟩ := Piece.coloredLetter_inj.mp (List.cons.inj hcs).1
        exact Or.inl ⟨rfl, rfl, Square.eq_of_coords (Fin.ext (by omega)) (Fin.ext (by simp_all))⟩
      | cons y before =>
        obtain ⟨rfl, rfl⟩ := List.cons.inj hcs
        rw [files_cons, width_coloredLetter] at hf
        exact Or.inr ⟨before, after, rfl, hs, by omega⟩

end Reads

/-- A rank's text is read exactly if it is one. -/
theorem exists_reads_iff (hr : rank < 8) :
    (∃ q, Reads rank cs file p q) ↔ (∀ x ∈ cs, IsMark x) ∧ file + files cs ≤ 8 := by
  constructor
  · rintro ⟨q, h⟩
    exact ⟨h.isMark, h.files_le⟩
  · rintro ⟨hmarks, hle⟩
    induction cs generalizing file p with
    | nil => exact ⟨p, .done hle⟩
    | cons x cs ih =>
      obtain ⟨hx, hrest⟩ := List.forall_mem_cons.mp hmarks
      rw [files_cons, ← Nat.add_assoc] at hle
      rcases hx with hx | hx
      · obtain ⟨q, h⟩ := ih (p := p) hrest hle
        exact ⟨q, .skip hx h⟩
      · obtain ⟨k, c, rfl⟩ := Piece.mem_letters_iff.mp hx
        rw [width_coloredLetter] at hle
        have hrank : 7 - rank < 8 := by omega
        have hfile : file < 8 := by omega
        obtain ⟨q, h⟩ := ih (p := p.put ⟨c, k, .ofCoords ⟨7 - rank, hrank⟩ ⟨file, hfile⟩⟩) hrest hle
        refine ⟨q, .put ?_ ?_ h⟩
        · simp only [Square.rank_ofCoords]
          omega
        · rw [Square.file_ofCoords]

/-- The occupied squares lie on the ranks already read or among the files already read of this
one. -/
def Filled (p : Position) (rank file : Nat) : Prop :=
  ∀ s ∈ p.occupied, 7 < rank + s.rank.val ∨ (rank + s.rank.val = 7 ∧ s.file.val < file)

namespace Filled

theorem mono {file' : Nat} (h : Filled p rank file) (hle : file ≤ file') :
    Filled p rank file' := fun s hs => (h s hs).imp_right fun ⟨hrank, hfile⟩ => ⟨hrank, by omega⟩

theorem next (h : Filled p rank file) : Filled p (rank + 1) 0 := fun s hs => by
  have := h s hs
  omega

theorem put (h : Filled p rank s.file) (hrank : s.rank.val + rank = 7) :
    Filled (p.put ⟨c, k, s⟩) rank (s.file + 1) := fun t ht => by
  rcases Bitboard.mem_insert.mp ht with rfl | ht
  · omega
  · have := h t ht
    omega

theorem not_mem (h : Filled p rank s.file) (hrank : s.rank.val + rank = 7) : s ∉ p.occupied :=
  fun hs => by
    have := h s hs
    omega

end Filled

namespace Reads

theorem filled (h : Reads rank cs file p q) (hf : Filled p rank file) : Filled q (rank + 1) 0 := by
  induction h with
  | done => exact hf.next
  | skip _ _ ih => exact ih (hf.mono (by omega))
  | put hrank hfile _ ih =>
    subst hfile
    exact ih (hf.put hrank)

theorem consistent (h : Reads rank cs file p q) (hp : p.Consistent) (hf : Filled p rank file) :
    q.Consistent := by
  induction h with
  | done => exact hp
  | skip _ _ ih => exact ih hp (hf.mono (by omega))
  | put hrank hfile _ ih =>
    subst hfile
    exact ih (hp.put (hf.not_mem hrank)) (hf.put hrank)

/-- A rank adds as many pieces of a color and a kind as it has letters of them. -/
theorem count_eq (h : Reads rank cs file p q) (hp : p.Consistent) (hf : Filled p rank file) :
    q.count c k = p.count c k + cs.count (k.coloredLetter c) := by
  induction h with
  | done => simp
  | @skip x cs file p q hx _ ih =>
    have hne : x ≠ k.coloredLetter c := by
      rintro rfl
      rw [k.isDigit_coloredLetter] at hx
      cases hx
    rw [ih hp (hf.mono (by omega)), List.count_cons_of_ne hne]
  | @put c' k' s cs file p q hrank hfile _ ih =>
    subst hfile
    have hs : s ∉ p.pieces c' k' := fun hs =>
      hf.not_mem hrank (hp.mem_occupied.mpr ⟨c', hp.mem_occupiedBy.mpr ⟨k', hs⟩⟩)
    have hletter : (k'.coloredLetter c' == k.coloredLetter c) = true ↔ c = c' ∧ k = k' := by
      rw [beq_iff_eq, Piece.coloredLetter_inj, eq_comm, @eq_comm _ k]
    rw [ih (hp.put (hf.not_mem hrank)) (hf.put hrank), count_put hs, List.count_cons, Nat.add_assoc,
      Nat.add_comm (List.count _ _)]
    simp only [hletter]

end Reads

theorem placeRanks_cons_eq_ok_iff (hr : rank < 8) : placeRanks (r :: rs) rank p = .ok q ↔
    ∃ p', Reads rank r 0 p p' ∧ placeRanks rs (rank + 1) p' = .ok q := by
  rw [placeRanks, if_neg (by omega)]
  constructor
  · intro h
    obtain ⟨p', hp', h⟩ := Except.of_bind_eq_ok h
    exact ⟨p', reads_of_placeRank hr hp', h⟩
  · rintro ⟨p', hp', h⟩
    rw [placeRank_of_reads hp']
    exact h

/-- Ranks are read exactly if there are no more than the board still has. -/
theorem exists_placeRanks_iff (hr : rank ≤ 8) : (∃ q, placeRanks rs rank p = .ok q) ↔
    rank + rs.length ≤ 8 ∧ ∀ r ∈ rs, IsRank r := by
  induction rs generalizing rank p with
  | nil => simpa [placeRanks] using hr
  | cons r rs ih =>
    by_cases hlt : rank < 8
    · have hrank : (∃ p', Reads rank r 0 p p') ↔ IsRank r := by
        rw [exists_reads_iff hlt, Nat.zero_add]
        exact ⟨fun h => ⟨h.1, h.2⟩, fun h => ⟨h.marks, h.files_le⟩⟩
      have hrest (p' : Position) : (∃ q, placeRanks rs (rank + 1) p' = .ok q) ↔
          rank + (r :: rs).length ≤ 8 ∧ ∀ r ∈ rs, IsRank r := by
        rw [ih hlt, List.length_cons, Nat.succ_add_eq_add_succ]
      simp only [placeRanks_cons_eq_ok_iff hlt]
      rw [exists_comm]
      simp only [exists_and_left, hrest, exists_and_right, hrank, List.forall_mem_cons]
      exact and_left_comm
    · rw [placeRanks, if_pos (by omega), List.length_cons]
      simp only [reduceCtorEq, exists_false, false_iff]
      omega

theorem mem_pieces_placeRanks (h : placeRanks rs rank p = .ok q) (hr : rank + rs.length ≤ 8) :
    s ∈ q.pieces c k ↔ s ∈ p.pieces c k ∨ ∃ (i : Nat) (before after : List Char),
      rs[i]? = some (before ++ k.coloredLetter c :: after) ∧ s.rank.val + (rank + i) = 7 ∧
        s.file.val = files before := by
  induction rs generalizing rank p with
  | nil =>
    obtain rfl := Except.ok.inj h
    simp
  | cons r rs ih =>
    rw [List.length_cons] at hr
    obtain ⟨p', hp', h⟩ := (placeRanks_cons_eq_ok_iff (by omega)).mp h
    rw [ih h (by omega), hp'.mem_pieces_iff, or_assoc]
    refine or_congr_right ⟨?_, ?_⟩
    · rintro (⟨before, after, hr, hs, hf⟩ | ⟨i, before, after, hi, hs, hf⟩)
      · exact ⟨0, before, after, congrArg some hr, hs, by rw [hf, Nat.zero_add]⟩
      · exact ⟨i + 1, before, after, hi, by omega, hf⟩
    · rintro ⟨i, before, after, hi, hs, hf⟩
      cases i with
      | zero => exact Or.inl ⟨before, after, Option.some.inj hi, hs, by rw [hf, Nat.zero_add]⟩
      | succ i => exact Or.inr ⟨i, before, after, hi, by omega, hf⟩

theorem consistent_placeRanks (h : placeRanks rs rank p = .ok q) (hp : p.Consistent)
    (hf : Filled p rank 0) : q.Consistent := by
  induction rs generalizing rank p with
  | nil =>
    obtain rfl := Except.ok.inj h
    exact hp
  | cons r rs ih =>
    by_cases hr : rank < 8
    · obtain ⟨p', hp', h⟩ := (placeRanks_cons_eq_ok_iff hr).mp h
      exact ih h (hp'.consistent hp hf) (hp'.filled hf)
    · rw [placeRanks, if_pos (by omega)] at h
      cases h

theorem count_placeRanks (h : placeRanks rs rank p = .ok q) (hp : p.Consistent)
    (hf : Filled p rank 0) : q.count c k = p.count c k + rs.flatten.count (k.coloredLetter c) := by
  induction rs generalizing rank p with
  | nil =>
    obtain rfl := Except.ok.inj h
    simp
  | cons r rs ih =>
    by_cases hr : rank < 8
    · obtain ⟨p', hp', h⟩ := (placeRanks_cons_eq_ok_iff hr).mp h
      rw [ih h (hp'.consistent hp hf) (hp'.filled hf), hp'.count_eq hp hf, List.flatten_cons,
        List.count_append, Nat.add_assoc]
    · rw [placeRanks, if_pos (by omega)] at h
      cases h

end Fen

end ChessEval
