import ChessEval.Proofs.Board.FenText
import ChessEval.Proofs.Board.Rights

/-! The grammar of a FEN, and the position that each text of it tells. -/
namespace ChessEval

open Position

variable {p q : Position} {c : Color} {side : CastlingSide} {s : Square} {x : Char}
  {cs w : List Char} {r held : CastlingRights} {text : String}

namespace CastlingRights

@[simp] theorem has_none (c : Color) (side : CastlingSide) : none.has c side = false := by
  cases c <;> cases side <;> rfl

theorem ext_has (h : ∀ c side, r.has c side = true ↔ held.has c side = true) : r = held := by
  have hhas (c : Color) (side : CastlingSide) : r.has c side = held.has c side :=
    Bool.eq_iff_iff.mpr (h c side)
  cases r
  cases held
  congr 1
  · exact hhas .white .kingside
  · exact hhas .white .queenside
  · exact hhas .black .kingside
  · exact hhas .black .queenside

end CastlingRights

namespace Position

/-- The sets of a position are told by those of its pieces. -/
theorem Consistent.sameBoard_of_mem (hp : p.Consistent) (hq : q.Consistent)
    (h : ∀ c k s, s ∈ p.pieces c k ↔ s ∈ q.pieces c k) : p.SameBoard q :=
  hp.sameBoard hq <| funext fun s => Option.ext fun (c, k) => by
    rw [pieceAt?_eq_some_iff hp, pieceAt?_eq_some_iff hq, h]

end Position

namespace Square

theorem ofLetters?_eq_some_iff : ofLetters? w = some s ↔ w = s.letters := by
  constructor
  · intro h
    unfold ofLetters? at h
    split at h
    · next f r =>
      split at h
      · next hfr =>
        obtain ⟨hr, hf⟩ := at?_eq_some_iff.mp h
        have hle {a c : Char} (h : a ≤ c) : a.toNat ≤ c.toNat := h
        have hfile : 'a'.toNat + s.file.val = f.toNat := by
          rw [hf, Nat.add_sub_cancel' (hle hfr.1)]
        have hrank : '1'.toNat + s.rank.val = r.toNat := by
          rw [hr, Nat.add_sub_cancel' (hle hfr.2.2.1)]
        rw [letters, fileLetter, rankDigit, hfile, hrank, Char.ofNat_toNat, Char.ofNat_toNat]
      · cases h
    · cases h
  · rintro rfl
    exact ofLetters?_letters s

end Square

namespace Fen

/-- The letter of a castling right. -/
def rightLetter : Color → CastlingSide → Char
  | .white, .kingside => 'K'
  | .white, .queenside => 'Q'
  | .black, .kingside => 'k'
  | .black, .queenside => 'q'

theorem rightLetter_inj {c' : Color} {side' : CastlingSide} :
    rightLetter c side = rightLetter c' side' ↔ c = c' ∧ side = side' := by
  cases c <;> cases side <;> cases c' <;> cases side' <;> decide

theorem addRight_rightLetter (r : CastlingRights) (c : Color) (side : CastlingSide) :
    addRight r (rightLetter c side) = .ok (r.set true c side) := by
  cases c <;> cases side <;> rfl

theorem mem_rights_iff : x ∈ "KQkq-".toList ↔ x = '-' ∨ ∃ c side, x = rightLetter c side := by
  constructor
  · intro h
    simp only [String.reduceToList, List.mem_cons, List.not_mem_nil, or_false] at h
    rcases h with rfl | rfl | rfl | rfl | rfl
    exacts [Or.inr ⟨.white, .kingside, rfl⟩, Or.inr ⟨.white, .queenside, rfl⟩,
      Or.inr ⟨.black, .kingside, rfl⟩, Or.inr ⟨.black, .queenside, rfl⟩, Or.inl rfl]
  · rintro (rfl | ⟨c, side, rfl⟩)
    · decide
    · cases c <;> cases side <;> decide

theorem exists_addRight_iff : (∃ held, addRight r x = .ok held) ↔ x ∈ "KQkq-".toList := by
  constructor
  · rintro ⟨held, h⟩
    unfold addRight at h
    split_ifs at h <;> simp_all
  · intro hx
    rcases mem_rights_iff.mp hx with rfl | ⟨c, side, rfl⟩
    · exact ⟨r, rfl⟩
    · exact ⟨_, addRight_rightLetter r c side⟩

theorem has_addRight (h : addRight r x = .ok held) :
    held.has c side = true ↔ r.has c side = true ∨ rightLetter c side = x := by
  rcases mem_rights_iff.mp (exists_addRight_iff.mp ⟨held, h⟩) with rfl | ⟨c', side', rfl⟩
  · have hdash : rightLetter c side ≠ '-' := by cases c <;> cases side <;> decide
    obtain rfl := Except.ok.inj h
    rw [or_iff_left hdash]
  · rw [addRight_rightLetter] at h
    obtain rfl := Except.ok.inj h
    rw [CastlingRights.has_set, rightLetter_inj]
    split <;> simp_all

/-- A castling field is read as the rights that it names, besides those held already. -/
theorem castling_eq_ok_iff : castling cs r = .ok held ↔ (∀ x ∈ cs, x ∈ "KQkq-".toList) ∧
    ∀ c side, held.has c side = true ↔ r.has c side = true ∨ rightLetter c side ∈ cs := by
  induction cs generalizing r with
  | nil =>
    rw [castling, Except.ok.injEq]
    constructor
    · rintro rfl
      simp
    · rintro ⟨-, h⟩
      exact CastlingRights.ext_has fun c side => by simpa using (h c side).symm
  | cons x cs ih =>
    rw [castling, List.forall_mem_cons]
    constructor
    · intro h
      obtain ⟨r', hr', h⟩ := Except.of_bind_eq_ok h
      obtain ⟨hcs, hheld⟩ := ih.mp h
      refine ⟨⟨exists_addRight_iff.mp ⟨r', hr'⟩, hcs⟩, fun c side => ?_⟩
      rw [hheld, has_addRight hr', List.mem_cons, or_assoc]
    · rintro ⟨⟨hx, hcs⟩, hheld⟩
      obtain ⟨r', hr'⟩ := exists_addRight_iff.mpr hx
      rw [hr']
      refine ih.mpr ⟨hcs, fun c side => ?_⟩
      rw [hheld, has_addRight hr', List.mem_cons, or_assoc]

theorem exists_castling (hcs : ∀ x ∈ cs, x ∈ "KQkq-".toList) :
    ∃ held, castling cs .none = .ok held := by
  refine ⟨⟨'K' ∈ cs, 'Q' ∈ cs, 'k' ∈ cs, 'q' ∈ cs⟩, castling_eq_ok_iff.mpr ⟨hcs, fun c side => ?_⟩⟩
  cases c <;> cases side <;> simp [CastlingRights.has, CastlingRights.none, rightLetter]

theorem sideToMove_eq_ok_iff : sideToMove w = .ok c ↔ w = sideText c := by
  constructor
  · intro h
    unfold sideToMove at h
    split at h
    · next hw => rw [hw, ← Except.ok.inj h, sideText]
    · split at h
      · next hw => rw [hw, ← Except.ok.inj h, sideText]
      · cases h
  · rintro rfl
    exact sideToMove_sideText c

theorem enPassant_eq_ok_iff {t : Option Square} : enPassant w = .ok t ↔ w = enPassantText t := by
  constructor
  · intro h
    unfold enPassant at h
    split at h
    · next hw => rw [hw, ← Except.ok.inj h, enPassantText]
    · split at h
      · next s hs =>
        rw [Square.ofLetters?_eq_some_iff.mp hs, ← Except.ok.inj h, enPassantText]
      · cases h
  · rintro rfl
    exact enPassant_enPassantText t

theorem counter_eq_iff {d n : UInt32} {w : Option (List Char)} :
    n = counter d w ↔ Text.Told d.toNat w n.toNat := by
  have hsome {v : List Char} {m : UInt32} (hw : w = some v) (h : Text.Numeral v m.toNat) :
      counter d w = m := by
    rw [hw, counter, Text.counter?_eq_some_iff.mpr h, Option.getD_some]
  have hnone (h : ∀ v m, w = some v → ¬ Text.Numeral v m) : counter d w = d := by
    cases w with
    | none => rfl
    | some v => rw [counter, Text.counter?_eq_none_iff.mpr fun m => h v m rfl, Option.getD_none]
  constructor
  · rintro rfl
    by_cases h : ∃ v m, w = some v ∧ Text.Numeral v (UInt32.toNat m)
    · obtain ⟨v, m, hw, hm⟩ := h
      exact Or.inl ⟨v, hw, (hsome hw hm).symm ▸ hm⟩
    · have hno (v : List Char) (m : Nat) (hw : w = some v) : ¬ Text.Numeral v m := fun hm => by
        obtain ⟨m, rfl⟩ := hm.exists_eq_toNat
        exact h ⟨v, m, hw, hm⟩
      exact Or.inr ⟨hno, congrArg UInt32.toNat (hnone hno)⟩
  · rintro (⟨v, hw, h⟩ | ⟨h, hn⟩)
    · exact (hsome hw h).symm
    · rw [hnone h, UInt32.toNat_inj.mp hn]

/-- The fields of a FEN, its board already cut into ranks and its two counters perhaps missing. -/
structure Parts where
  ranks : List (List Char)
  side : List Char
  rights : List Char
  target : List Char
  rest : List (List Char)

namespace Parts

variable {f : Parts}

def fields (f : Parts) : List (List Char) :=
  List.intercalate ['/'] f.ranks :: f.side :: f.rights :: f.target :: f.rest

/-- What the fields must be; whatever stands after the fourth may be anything. -/
structure Proper (f : Parts) : Prop where
  length_ranks : f.ranks.length ≤ 8
  ranks : ∀ r ∈ f.ranks, IsRank r
  white_king : f.ranks.flatten.count 'K' = 1
  black_king : f.ranks.flatten.count 'k' = 1
  side : f.side = ['w'] ∨ f.side = ['b']
  rights : ∀ x ∈ f.rights, x ∈ "KQkq-".toList
  target : f.target = ['-'] ∨ ∃ s : Square, f.target = s.letters

/-- The position that the fields tell: each letter of the board stands where the text before it
leaves off, every other square is empty, and the rest is as written. -/
structure Tells (f : Parts) (p : Position) : Prop where
  consistent : p.Consistent
  pieces : ∀ c k s, s ∈ p.pieces c k ↔ ∃ (i : Nat) (before after : List Char),
    f.ranks[i]? = some (before ++ k.coloredLetter c :: after) ∧ s.rank.val + i = 7 ∧
      s.file.val = files before
  side : f.side = sideText p.turn
  rights : ∀ c side, p.castling.has c side = true ↔ rightLetter c side ∈ f.rights
  target : f.target = enPassantText p.enPassant
  halfmoves : Text.Told 0 f.rest[0]? p.halfmoves.toNat
  fullmoves : Text.Told 1 f.rest[1]? p.fullmoves.toNat
  hash : p.hash = p.hashOf

/-- A text is these fields, with blanks between them and perhaps around. -/
def Of (f : Parts) (text : String) : Prop := Text.Spaced text.toList f.fields

theorem Proper.placement_eq (h : f.Proper) :
    placement (List.intercalate ['/'] f.ranks) = placeRanks f.ranks 0 .empty := by
  -- the kings are on some rank, so the cut text has pieces; a slash is in none of them
  have hne : f.ranks ≠ [] := fun hnil => by
    have hking := h.white_king
    rw [hnil] at hking
    cases hking
  have hslash : ¬ IsMark '/' := by
    rintro (h | h)
    · exact absurd h (by decide)
    · exact absurd h (by decide)
  rw [placement, Text.split_eq_iff.mpr ⟨hne, fun r hr hx => hslash ((h.ranks r hr).marks _ hx), rfl⟩]

theorem Proper.exists_placeRanks (h : f.Proper) : ∃ q, placeRanks f.ranks 0 empty = .ok q := by
  rw [exists_placeRanks_iff (Nat.zero_le 8), Nat.zero_add]
  exact ⟨h.length_ranks, h.ranks⟩

theorem Proper.king (h : f.Proper) (c : Color) :
    f.ranks.flatten.count (Piece.king.coloredLetter c) = 1 := by
  cases c with
  | white => exact h.white_king
  | black => exact h.black_king

theorem count_king {ranks : List (List Char)} (h : placeRanks ranks 0 empty = .ok q) :
    q.count c .king = ranks.flatten.count (Piece.king.coloredLetter c) := by
  have hempty : empty.count c .king = 0 := by cases c <;> decide
  rw [count_placeRanks h consistent_empty fun s hs => (Bitboard.not_mem_empty s hs).elim, hempty,
    Nat.zero_add]

theorem mem_pieces_of_ranks {ranks : List (List Char)} {k : Piece} (hr : ranks.length ≤ 8)
    (h : placeRanks ranks 0 empty = .ok q) :
    s ∈ q.pieces c k ↔ ∃ (i : Nat) (before after : List Char),
      ranks[i]? = some (before ++ k.coloredLetter c :: after) ∧ s.rank.val + i = 7 ∧
        s.file.val = files before := by
  have hempty : s ∉ empty.pieces c k := by
    cases c <;> cases k <;> exact Bitboard.not_mem_empty s
  simpa [hempty] using mem_pieces_placeRanks (c := c) (k := k) (s := s) h (by omega)

theorem Proper.ofFields_eq_ok_iff (h : f.Proper) : ofFields f.fields = .ok p ↔ f.Tells p := by
  rw [Fen.ofFields_eq_ok_iff]
  constructor
  · rintro ⟨_, _, _, _, _, q, hfields, hq, -, hturn, hrights, htarget, hboard, hhalf, hfull, hhash⟩
    injection hfields with hranks hfields
    injection hfields with hside hfields
    injection hfields with hheld hfields
    injection hfields with hpassed hrest
    subst hranks hside hheld hpassed hrest
    have hconsistent := consistent_of_placement hq
    rw [h.placement_eq] at hq
    exact {
      consistent := hboard.consistent hconsistent
      pieces := fun c k s => by rw [hboard.pieces, mem_pieces_of_ranks h.length_ranks hq]
      side := sideToMove_eq_ok_iff.mp hturn
      rights := fun c side => by simpa using (castling_eq_ok_iff.mp hrights).2 c side
      target := enPassant_eq_ok_iff.mp htarget
      halfmoves := counter_eq_iff.mp hhalf
      fullmoves := counter_eq_iff.mp hfull
      hash := hhash }
  · intro ht
    obtain ⟨q, hq⟩ := h.exists_placeRanks
    have hplace := h.placement_eq.trans hq
    have hboard : p.SameBoard q := ht.consistent.sameBoard_of_mem (consistent_of_placement hplace)
      fun c k s => by rw [ht.pieces, mem_pieces_of_ranks h.length_ranks hq]
    refine ⟨_, _, _, _, _, q, rfl, hplace, fun c => ?_, sideToMove_eq_ok_iff.mpr ht.side,
      castling_eq_ok_iff.mpr ⟨h.rights, fun c side => ?_⟩, enPassant_eq_ok_iff.mpr ht.target, hboard,
      counter_eq_iff.mpr ht.halfmoves, counter_eq_iff.mpr ht.fullmoves, ht.hash⟩
    · rw [count_king hq, h.king]
    · simpa using ht.rights c side

/-- Proper fields tell a position. -/
theorem Proper.exists_ofFields (h : f.Proper) : ∃ p, ofFields f.fields = .ok p := by
  obtain ⟨q, hq⟩ := h.exists_placeRanks
  obtain ⟨turn, hturn⟩ : ∃ c, f.side = sideText c :=
    h.side.elim (fun hw => ⟨.white, hw⟩) fun hb => ⟨.black, hb⟩
  obtain ⟨passed, hpassed⟩ : ∃ t, f.target = enPassantText t :=
    h.target.elim (fun hn => ⟨none, hn⟩) fun ⟨s, hs⟩ => ⟨some s, hs⟩
  obtain ⟨held, hheld⟩ := exists_castling h.rights
  let p : Position := { q with
    turn := turn
    castling := held
    enPassant := passed
    halfmoves := counter 0 f.rest[0]?
    fullmoves := counter 1 f.rest[1]? }
  have hking (c : Color) : q.count c .king = 1 := by rw [count_king hq, h.king]
  exact ⟨p.rehash, Fen.ofFields_eq_ok_iff.mpr ⟨_, _, _, _, _, q, rfl, h.placement_eq.trans hq, hking,
    sideToMove_eq_ok_iff.mpr hturn, hheld, enPassant_eq_ok_iff.mpr hpassed,
    ⟨fun c => by cases c <;> rfl, rfl⟩, rfl, rfl, rfl⟩⟩

/-- Whatever is read are proper fields. -/
theorem exists_proper_of_ofFields {fs : List (List Char)} (h : ofFields fs = .ok p) :
    ∃ f : Parts, f.fields = fs ∧ f.Proper := by
  obtain ⟨board, side, rights, target, rest, q, rfl, hq, hking, hturn, hrights, htarget, -⟩ :=
    Fen.ofFields_eq_ok_iff.mp h
  have hplace : placeRanks (Text.split (· == '/') board) 0 empty = .ok q := hq
  obtain ⟨hlength, hranks⟩ := (exists_placeRanks_iff (Nat.zero_le 8)).mp ⟨q, hplace⟩
  refine ⟨⟨Text.split (· == '/') board, side, rights, target, rest⟩, ?_, ?_⟩
  · rw [fields, Text.intercalate_split]
  · exact {
      length_ranks := by rwa [Nat.zero_add] at hlength
      ranks := hranks
      white_king := (count_king (c := .white) hplace).symm.trans (hking .white)
      black_king := (count_king (c := .black) hplace).symm.trans (hking .black)
      side := by
        rw [sideToMove_eq_ok_iff.mp hturn]
        cases p.turn
        · exact Or.inl rfl
        · exact Or.inr rfl
      rights := (castling_eq_ok_iff.mp hrights).1
      target := by
        rw [enPassant_eq_ok_iff.mp htarget]
        cases p.enPassant with
        | none => exact Or.inl rfl
        | some s => exact Or.inr ⟨s, rfl⟩ }

end Parts

end Fen

namespace Position

open Fen

/-- A text is read as a position exactly if it has proper fields, and they tell the position. -/
theorem ofFen_eq_ok_iff :
    ofFen text = .ok p ↔ ∃ f : Parts, f.Of text ∧ f.Proper ∧ f.Tells p := by
  constructor
  · intro h
    obtain ⟨f, hf, hproper⟩ := Parts.exists_proper_of_ofFields h
    rw [ofFen, ← hf] at h
    exact ⟨f, Text.words_eq_iff.mp hf.symm, hproper, hproper.ofFields_eq_ok_iff.mp h⟩
  · rintro ⟨f, hof, hproper, htells⟩
    rw [ofFen, Text.words_eq_iff.mpr hof]
    exact hproper.ofFields_eq_ok_iff.mpr htells

/-- Exactly the texts of the grammar are read, each as the position that its fields tell. -/
theorem ofFen_reads_grammar :
    (∀ text p, ofFen text = .ok p ↔ ∃ f : Parts, f.Of text ∧ f.Proper ∧ f.Tells p) ∧
      ∀ text, (∃ p, ofFen text = .ok p) ↔ ∃ f : Parts, f.Of text ∧ f.Proper := by
  refine ⟨fun text p => ofFen_eq_ok_iff, fun text => ⟨?_, ?_⟩⟩
  · rintro ⟨p, h⟩
    obtain ⟨f, hof, hproper, -⟩ := ofFen_eq_ok_iff.mp h
    exact ⟨f, hof, hproper⟩
  · rintro ⟨f, hof, hproper⟩
    obtain ⟨p, hp⟩ := hproper.exists_ofFields
    exact ⟨p, ofFen_eq_ok_iff.mpr ⟨f, hof, hproper, hproper.ofFields_eq_ok_iff.mp hp⟩⟩

/-- What is printed is a normal form: it is read as the position it was printed from, so it is
printed again as it is, and two texts have the same one exactly if they tell the same position. -/
theorem toFen_normal_form :
    (∀ p : Position, p.Sound → p.hash = p.hashOf → ofFen p.toFen = .ok p) ∧
      ∀ text p, ofFen text = .ok p →
        ofFen p.toFen = .ok p ∧ (∀ q, ofFen p.toFen = .ok q → q.toFen = p.toFen) ∧
          ∀ text' q, ofFen text' = .ok q → (p.toFen = q.toFen ↔ p = q) := by
  have hread {text : String} {p : Position} (h : ofFen text = .ok p) : ofFen p.toFen = .ok p :=
    (sound_of_ofFen h).ofFen_toFen (hash_of_ofFen h)
  refine ⟨fun p hp hh => hp.ofFen_toFen hh, fun text p h => ⟨hread h, fun q hq => ?_, ?_⟩⟩
  · rw [hread h] at hq
    rw [Except.ok.inj hq]
  · intro text' q h'
    constructor
    · intro hpq
      have hp := hread h
      rw [hpq, hread h'] at hp
      exact (Except.ok.inj hp).symm
    · rintro rfl
      rfl

/-- Zeros, runs in parts, short and missing ranks, unordered rights and odd counters are gone from
the normal form. -/
theorem toFen_of_loose_text :
    ∃ p, ofFen "10k02/8/pP//1111Q0K\t b  q-K- a1 +07 x y" = .ok p ∧ p.Sound ∧ p.hash = p.hashOf ∧
      ofFen p.toFen = .ok p ∧ (∀ q, ofFen p.toFen = .ok q → q.toFen = p.toFen) ∧
        p.toFen.toList = "1k6/8/pP6/8/4QK2/8/8/8 b Kq a1 7 1".toList := by
  obtain ⟨p, hp, h⟩ := exists_of_ofFen "10k02/8/pP//1111Q0K\t b  q-K- a1 +07 x y"
    (fun p => p.toFen.toList = "1k6/8/pP6/8/4QK2/8/8/8 b Kq a1 7 1".toList) (by decide +kernel)
  have hsound := sound_of_ofFen hp
  have hhash := hash_of_ofFen hp
  exact ⟨p, hp, hsound, hhash, toFen_normal_form.1 p hsound hhash,
    (toFen_normal_form.2 _ p hp).2.1, of_decide_eq_true h⟩

end Position

end ChessEval
