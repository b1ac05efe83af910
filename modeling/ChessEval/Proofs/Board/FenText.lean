import ChessEval.Proofs.Board.Reading
import ChessEval.Proofs.Text.Cutting

/-! The FEN of a position is read as that position. -/
namespace ChessEval

open Position

variable {p q : Position} {l : List Placed} {c : Color} {k : Piece} {s : Square} {r : Fin 8}
  {run file rank : Nat} {x : Char} {cs : List Char}

namespace Position

/-- A position is made by putting its pieces on an empty board. -/
theorem Consistent.sameBoard_put (hp : p.Consistent)
    (hl : ∀ c k s, ⟨c, k, s⟩ ∈ l ↔ s ∈ p.pieces c k) : (l.foldl Position.put empty).SameBoard p := by
  have hempty : ∀ c k s, s ∉ empty.pieces c k := fun c k s => by
    cases c <;> cases k <;> exact Bitboard.not_mem_empty s
  refine SameBoard.of_mem (fun c k s => ?_) (fun c s => ?_) (fun s => ?_)
  · rw [mem_pieces_foldl_put, hl, or_iff_left (hempty c k s)]
  · rw [mem_occupiedBy_foldl_put, hp.mem_occupiedBy, consistent_empty.mem_occupiedBy]
    simp only [hl, hempty, exists_false, or_false]
  · have hnone : s ∉ empty.occupied := Bitboard.not_mem_empty s
    rw [mem_occupied_foldl_put, hp.mem_occupied, or_iff_left hnone]
    simp only [hp.mem_occupiedBy, ← hl]
    constructor
    · rintro ⟨⟨c, k, s⟩, hx, rfl⟩
      exact ⟨c, k, hx⟩
    · rintro ⟨c, k, hx⟩
      exact ⟨_, hx, rfl⟩

end Position

namespace Square

theorem ofLetters?_letters (s : Square) : ofLetters? s.letters = some s := by
  revert s
  decide

theorem isWord_letters (s : Square) : Text.IsWord s.letters := by
  revert s
  decide

end Square

namespace Fen

/-- What stands on a square, a list of at most one piece. -/
def standing (p : Position) (s : Square) : List Placed :=
  ((p.pieceAt? s).map fun (c, k) => ⟨c, k, s⟩).toList

/-- The pieces of a rank, from the a-file on. -/
def rankPieces (p : Position) (r : Fin 8) : List Placed :=
  (List.finRange 8).flatMap fun f => standing p (.ofCoords r f)

/-- The pieces of a position in the order of its FEN. -/
def boardPieces (p : Position) : List Placed := (List.finRange 8).reverse.flatMap (rankPieces p)

theorem mem_boardPieces (hp : p.Consistent) : ⟨c, k, s⟩ ∈ boardPieces p ↔ s ∈ p.pieces c k := by
  rw [← pieceAt?_eq_some_iff hp]
  simp only [boardPieces, rankPieces, standing, List.mem_flatMap, List.mem_reverse,
    List.mem_finRange, true_and, Option.mem_toList, Option.map_eq_some_iff, Prod.exists,
    Placed.mk.injEq]
  constructor
  · rintro ⟨r, f, c, k, h, rfl, rfl, rfl⟩
    exact h
  · intro h
    have hs : Square.ofCoords s.rank s.file = s := Square.eq_of_coords (by simp) (by simp)
    exact ⟨s.rank, s.file, c, k, hs.symm ▸ h, rfl, rfl, hs⟩

theorem placeRank_run (hrun : run ≤ 8) :
    placeRank rank ((if run = 0 then [] else Text.natText run) ++ cs) file q =
      placeRank rank cs (file + run) q := by
  split
  · next h => simp [h]
  · next h =>
    have htext : Text.natText run = [run.digitChar] := Nat.toDigits_of_lt_base (by omega)
    rw [htext, List.singleton_append, placeRank, Text.digit?_digitChar run (by omega)]

/-- Reading a rank's text from some file on puts the pieces of these files on the board. -/
theorem placeRank_rankLetters {fs : List (Fin 8)}
    (hfs : fs.map Fin.val = List.range' (file + run) fs.length) (hlen : file + run + fs.length = 8) :
    placeRank (7 - r) (rankLetters (fs.map fun f => pieceLetter p (.ofCoords r f)) run) file q =
      .ok ((fs.flatMap fun f => standing p (.ofCoords r f)).foldl Position.put q) := by
  -- the text of the `run` empty squares before these files is still to come
  induction fs generalizing run file q with
  | nil =>
    rw [List.length_nil, Nat.add_zero] at hlen
    rw [List.map_nil, rankLetters, ← List.append_nil (if run = 0 then [] else _),
      placeRank_run (by omega), placeRank, if_neg (by omega)]
    rfl
  | cons f fs ih =>
    rw [List.map_cons, List.length_cons, List.range'_succ] at hfs
    obtain ⟨hf, hfs⟩ := List.cons.inj hfs
    rw [List.length_cons] at hlen
    rw [List.map_cons, List.flatMap_cons, List.foldl_append]
    cases hs : p.pieceAt? (.ofCoords r f) with
    | none =>
      have hletter : pieceLetter p (.ofCoords r f) = none := by rw [pieceLetter, hs]; rfl
      rw [hletter, rankLetters, ih (by rw [hfs, Nat.add_assoc]) (by omega)]
      simp [standing, hs]
    | some x =>
      obtain ⟨c, k⟩ := x
      have hletter : pieceLetter p (.ofCoords r f) = some (k.coloredLetter c) := by
        rw [pieceLetter, hs]
        rfl
      have hat : Square.at? (7 - (7 - r.val)) ((file + run) % 256) = some (.ofCoords r f) := by
        rw [Square.at?_eq_some_iff, Square.rank_ofCoords, Square.file_ofCoords]
        omega
      rw [hletter, rankLetters, placeRank_run (by omega), placeRank, k.digit?_coloredLetter,
        k.ofLetter?_coloredLetter]
      simp only [hat, k.color_coloredLetter]
      rw [ih (by rw [hfs, Nat.add_zero]) (by omega)]
      simp [standing, hs]

theorem placeRank_rankText (p q : Position) (r : Fin 8) :
    placeRank (7 - r) (rankText p r) 0 q = .ok ((rankPieces p r).foldl Position.put q) :=
  placeRank_rankLetters (by decide) (by decide)

theorem placeRanks_rankText {rs : List (Fin 8)}
    (hrs : rs.map (fun r => 7 - r.val) = List.range' rank rs.length) :
    placeRanks (rs.map (rankText p)) rank q =
      .ok ((rs.flatMap (rankPieces p)).foldl Position.put q) := by
  induction rs generalizing rank q with
  | nil => rfl
  | cons r rs ih =>
    rw [List.map_cons, List.length_cons, List.range'_succ] at hrs
    obtain ⟨rfl, hrs⟩ := List.cons.inj hrs
    rw [List.map_cons, placeRanks, if_neg (by omega), placeRank_rankText, Except.bind, ih hrs,
      List.flatMap_cons, List.foldl_append]

/-- The letters of a rank are digits and letters of pieces. -/
theorem mem_rankLetters {l : List (Option Char)} (h : x ∈ rankLetters l run) :
    x.isDigit = true ∨ some x ∈ l := by
  induction l generalizing run with
  | nil =>
    rw [rankLetters] at h
    split at h
    · cases h
    · exact Or.inl (Text.isDigit_of_mem_natText h)
  | cons y l ih =>
    cases y with
    | none => exact (ih h).imp_right (List.mem_cons_of_mem _)
    | some y =>
      rw [rankLetters, List.mem_append, List.mem_cons] at h
      rcases h with h | rfl | h
      · split at h
        · cases h
        · exact Or.inl (Text.isDigit_of_mem_natText h)
      · exact Or.inr List.mem_cons_self
      · exact (ih h).imp_right (List.mem_cons_of_mem _)

theorem of_mem_rankText (h : x ∈ rankText p r) : x ≠ '/' ∧ Text.isBlank x = false := by
  rcases mem_rankLetters h with hx | hx
  · refine ⟨?_, Text.isBlank_of_isDigit hx⟩
    rintro rfl
    exact absurd hx (by decide)
  · obtain ⟨f, -, hf⟩ := List.mem_map.mp hx
    obtain ⟨⟨c, k⟩, -, rfl⟩ := Option.map_eq_some_iff.mp hf
    cases c <;> cases k <;> decide

theorem split_boardText (p : Position) :
    Text.split (· == '/') (boardText p) = (List.finRange 8).reverse.map (rankText p) := by
  have hne : (List.finRange 8).reverse.map (rankText p) ≠ [] := List.cons_ne_nil _ _
  refine Text.split_intercalate rfl hne fun w hw x hx => ?_
  obtain ⟨r, -, rfl⟩ := List.mem_map.mp hw
  simpa using (of_mem_rankText hx).1

theorem placement_boardText (p : Position) :
    placement (boardText p) = .ok ((boardPieces p).foldl Position.put empty) := by
  rw [placement, split_boardText]
  exact placeRanks_rankText (by decide)

theorem isWord_boardText (p : Position) : Text.IsWord (boardText p) := by
  constructor
  · intro h
    have hlength := congrArg List.length (split_boardText p)
    rw [h] at hlength
    cases hlength
  · intro x hx
    rcases Text.mem_of_mem_intercalate hx with rfl | ⟨w, hw, hx⟩
    · decide
    · obtain ⟨r, -, rfl⟩ := List.mem_map.mp hw
      exact (of_mem_rankText hx).2

theorem sideToMove_sideText (c : Color) : sideToMove (sideText c) = .ok c := by
  cases c <;> rfl

theorem castling_castlingText (r : CastlingRights) : castling (castlingText r) .none = .ok r := by
  obtain ⟨a, b, c, d⟩ := r
  cases a <;> cases b <;> cases c <;> cases d <;> rfl

theorem enPassant_enPassantText (t : Option Square) : enPassant (enPassantText t) = .ok t := by
  cases t with
  | none => rfl
  | some s =>
    have hne : s.letters ≠ ['-'] := fun h => by cases congrArg List.length h
    rw [enPassantText, enPassant, if_neg hne, s.ofLetters?_letters]

/-- The fields of a position whose hash is up to date are read as the position, whatever its en
passant square and its clocks are. -/
theorem ofFields_fields (hp : p.Sound) (hhash : p.hash = p.hashOf) :
    ofFields (fields p) = .ok p := by
  have hboard := hp.toConsistent.sameBoard_put fun _ _ _ => mem_boardPieces hp.toConsistent
  have hcounter (d n : UInt32) : n = counter d (some (Text.natText n.toNat)) := by
    rw [counter, Text.counter?_natText, Option.getD_some]
  have hking (c : Color) : ((boardPieces p).foldl Position.put empty).count c .king = 1 := by
    rw [count, hboard.pieces]
    exact hp.one_king c
  exact ofFields_eq_ok_iff.mpr ⟨_, _, _, _, _, _, rfl, placement_boardText p, hking,
    sideToMove_sideText _, castling_castlingText _, enPassant_enPassantText _, hboard.symm,
    hcounter _ _, hcounter _ _, hhash⟩

theorem isWord_of_mem_fields {w : List Char} (h : w ∈ fields p) : Text.IsWord w := by
  simp only [fields, List.mem_cons, List.not_mem_nil, or_false] at h
  rcases h with rfl | rfl | rfl | rfl | rfl | rfl
  · exact isWord_boardText p
  · cases p.turn <;> decide
  · obtain ⟨a, b, c, d⟩ := p.castling
    cases a <;> cases b <;> cases c <;> cases d <;> decide
  · cases p.enPassant with
    | none => decide
    | some s => exact s.isWord_letters
  · exact Text.isWord_natText _
  · exact Text.isWord_natText _

end Fen

namespace Position

theorem words_toFen (p : Position) : Text.words p.toFen.toList = Fen.fields p := by
  rw [toFen, String.toList_ofList]
  exact Text.words_intercalate (List.cons_ne_nil _ _) fun _ => Fen.isWord_of_mem_fields

theorem Sound.ofFen_toFen (hp : p.Sound) (hhash : p.hash = p.hashOf) : ofFen p.toFen = .ok p := by
  rw [ofFen, words_toFen, Fen.ofFields_fields hp hhash]

end Position

end ChessEval
