import ChessEval.Proofs.Board.WellFormed

/-! The two symmetries of the board: the image of a position has the images of its pieces, its
attacks and its checks. -/
namespace ChessEval

open Square Rules

inductive Symmetry where
  /-- The colors exchanged and the board seen from the other side. -/
  | flip
  /-- Left and right exchanged. -/
  | reflect

variable {σ : Symmetry} {p : Position} {b : Board} {c c' : Color} {k : Piece} {d : Step}
  {s t : Square} {a a' occupied : Bitboard} {blocked : Square → Prop}

@[simp] theorem Color.forward_opponent (c : Color) : c.opponent.forward = -c.forward := by
  cases c <;> rfl

@[simp] theorem Color.opponent_inj : c.opponent = c'.opponent ↔ c = c' := by
  cases c <;> cases c' <;> simp [opponent]

namespace Symmetry

def square : Symmetry → Square → Square
  | flip => flipVertical
  | reflect => flipHorizontal

def set : Symmetry → Bitboard → Bitboard
  | flip => Bitboard.flipVertical
  | reflect => Bitboard.flipHorizontal

def color : Symmetry → Color → Color
  | flip => Color.opponent
  | reflect => id

def step : Symmetry → Step → Step
  | flip, d => (-d.1, d.2)
  | reflect, d => (d.1, -d.2)

/-- The image of a piece: the same kind, of the image color, on the image square. -/
def placed (σ : Symmetry) (x : Placed) : Placed := ⟨σ.color x.color, x.piece, σ.square x.square⟩

@[simp] theorem square_square (σ : Symmetry) (s : Square) : σ.square (σ.square s) = s := by
  cases σ
  · exact flipVertical_flipVertical s
  · exact flipHorizontal_flipHorizontal s

@[simp] theorem square_inj : σ.square s = σ.square t ↔ s = t :=
  (Function.LeftInverse.injective σ.square_square).eq_iff

@[simp] theorem color_color (σ : Symmetry) (c : Color) : σ.color (σ.color c) = c := by
  cases σ
  · exact c.opponent_opponent
  · rfl

@[simp] theorem color_inj : σ.color c = σ.color c' ↔ c = c' :=
  (Function.LeftInverse.injective σ.color_color).eq_iff

@[simp] theorem color_opponent (σ : Symmetry) (c : Color) :
    σ.color c.opponent = (σ.color c).opponent := by
  cases σ <;> rfl

@[simp] theorem placed_placed (σ : Symmetry) (x : Placed) : σ.placed (σ.placed x) = x := by
  simp [placed]

@[simp] theorem mem_set : s ∈ σ.set a ↔ σ.square s ∈ a := by
  cases σ
  · exact Bitboard.mem_flipVertical
  · exact Bitboard.mem_flipHorizontal

theorem set_and (σ : Symmetry) (a a' : Bitboard) : σ.set (a &&& a') = σ.set a &&& σ.set a' :=
  Bitboard.ext fun s => by simp

theorem set_or (σ : Symmetry) (a a' : Bitboard) : σ.set (a ||| a') = σ.set a ||| σ.set a' :=
  Bitboard.ext fun s => by simp

theorem isEmpty_set (σ : Symmetry) (a : Bitboard) : (σ.set a).isEmpty = a.isEmpty := by
  rw [Bool.eq_iff_iff, Bitboard.isEmpty_iff, Bitboard.isEmpty_iff]
  simp only [mem_set]
  exact ⟨fun h s => by simpa using h (σ.square s), fun h s => h _⟩

theorem toList_set_perm (σ : Symmetry) (a : Bitboard) :
    (σ.set a).toList.Perm (a.toList.map σ.square) :=
  Bitboard.toList_perm_map σ.square_square fun _ => mem_set

theorem card_set (σ : Symmetry) (a : Bitboard) : (σ.set a).card = a.card := by
  rw [Bitboard.card, (σ.toList_set_perm a).length_eq, List.length_map, Bitboard.card]

/-- The image of a step leads from image to image. -/
@[simp] theorem off_square : (σ.square s).Off (σ.step d) (σ.square t) ↔ s.Off d t := by
  cases σ <;> simp only [Off, square, step, flipVertical, flipHorizontal, rank_ofCoords,
    file_ofCoords, Fin.val_rev] <;> omega

theorem slides_square (h : Slides blocked d s t) :
    Slides (fun u => blocked (σ.square u)) (σ.step d) (σ.square s) (σ.square t) := by
  induction h with
  | one hs => exact .one (off_square.mpr hs)
  | more hs hu _ ih =>
    refine .more (off_square.mpr hs) ?_ ih
    rwa [square_square]

theorem slide_square {ds : List Step} (hd : ∀ d ∈ ds, σ.step d ∈ ds) (h : Slide b ds s t) :
    Slide (fun u => b (σ.square u)) ds (σ.square s) (σ.square t) := by
  obtain ⟨d, hm, h⟩ := h
  exact ⟨_, hd d hm, slides_square h⟩

theorem rankDistance_square (σ : Symmetry) (s t : Square) :
    Play.rankDistance (σ.square s) (σ.square t) = Play.rankDistance s t := by
  cases σ <;> simp only [Play.rankDistance, square, flipVertical, flipHorizontal, rank_ofCoords,
    Fin.val_rev]
  omega

theorem fileDistance_square (σ : Symmetry) (s t : Square) :
    Play.fileDistance (σ.square s) (σ.square t) = Play.fileDistance s t := by
  cases σ <;> simp only [Play.fileDistance, square, flipVertical, flipHorizontal, file_ofCoords,
    Fin.val_rev]
  omega

/-- A pawn's two steps become those of the other color, or change places. -/
theorem pawnStep_square (h : PawnStep c s t) : PawnStep (σ.color c) (σ.square s) (σ.square t) := by
  cases σ with
  | flip =>
    rw [PawnStep, color, Color.forward_opponent]
    exact h.imp (off_square (σ := flip)).mpr (off_square (σ := flip)).mpr
  | reflect => exact h.symm.imp (off_square (σ := reflect)).mpr (off_square (σ := reflect)).mpr

/-- A piece attacks on the image of the board as it does on the board. -/
theorem attacks_square (h : Attacks b c k s t) :
    Attacks (fun u => b (σ.square u)) (σ.color c) k (σ.square s) (σ.square t) := by
  have hd : ∀ d ∈ diagonals, σ.step d ∈ diagonals := by cases σ <;> decide
  have hs : ∀ d ∈ straights, σ.step d ∈ straights := by cases σ <;> decide
  cases k with
  | pawn => exact pawnStep_square h
  | knight => simpa only [Attacks, KnightStep, rankDistance_square, fileDistance_square] using h
  | bishop => exact slide_square hd h
  | rook => exact slide_square hs h
  | queen => exact h.imp (slide_square hd) (slide_square hs)
  | king =>
    simpa only [Attacks, KingStep, rankDistance_square, fileDistance_square, ne_eq, square_inj]
      using h

end Symmetry

/-- A board with something on the squares of a set. -/
def Rules.filled (occupied : Bitboard) : Board := fun s =>
  if s ∈ occupied then some (.white, .pawn) else none

theorem Rules.filled_ne_none : filled occupied s ≠ none ↔ s ∈ occupied := by simp [filled]

/-- The attack set on the image of the occupied squares. -/
theorem Piece.attacks_image (σ : Symmetry) (k : Piece) (c : Color) (s : Square)
    (occupied : Bitboard) :
    k.attacks (σ.color c) (σ.square s) (σ.set occupied) = σ.set (k.attacks c s occupied) := by
  have hb : (fun u => filled occupied (σ.square u)) = filled (σ.set occupied) := by
    funext u
    simp [filled]
  have hb' : (fun u => filled (σ.set occupied) (σ.square u)) = filled occupied := by
    funext u
    simp [filled]
  refine Bitboard.ext fun t => ?_
  rw [Symmetry.mem_set, mem_attacks (b := filled (σ.set occupied)) fun u => filled_ne_none,
    mem_attacks (b := filled occupied) fun u => filled_ne_none]
  constructor
  · intro h
    have h := Symmetry.attacks_square (σ := σ) h
    rwa [hb', Symmetry.color_color, Symmetry.square_square] at h
  · intro h
    have h := Symmetry.attacks_square (σ := σ) h
    rwa [hb, Symmetry.square_square] at h

namespace Position

def image (p : Position) : Symmetry → Position
  | .flip => p.colorFlipped
  | .reflect => p.reflected

theorem pieces_image (σ : Symmetry) (p : Position) (c : Color) (k : Piece) :
    (p.image σ).pieces c k = σ.set (p.pieces (σ.color c) k) := by
  cases σ <;> cases c <;> cases k <;> rfl

theorem occupiedBy_image (σ : Symmetry) (p : Position) (c : Color) :
    (p.image σ).occupiedBy c = σ.set (p.occupiedBy (σ.color c)) := by
  cases σ <;> cases c <;> rfl

theorem occupied_image (σ : Symmetry) (p : Position) :
    (p.image σ).occupied = σ.set p.occupied := by
  cases σ <;> rfl

theorem turn_image (σ : Symmetry) (p : Position) : (p.image σ).turn = σ.color p.turn := by
  cases σ <;> rfl

theorem halfmoves_image (σ : Symmetry) (p : Position) : (p.image σ).halfmoves = p.halfmoves := by
  cases σ <;> rfl

theorem count_image (σ : Symmetry) (p : Position) (c : Color) (k : Piece) :
    (p.image σ).count c k = p.count (σ.color c) k := by
  rw [count, pieces_image, Symmetry.card_set, count]

theorem Consistent.image (hp : p.Consistent) (σ : Symmetry) : (p.image σ).Consistent := by
  refine ⟨?_, ?_, ?_⟩
  · intro s c k c' k' hs hs'
    rw [pieces_image, Symmetry.mem_set] at hs hs'
    obtain ⟨hc, hk⟩ := hp.unique hs hs'
    exact ⟨Symmetry.color_inj.mp hc, hk⟩
  · intro s c
    simp only [occupiedBy_image, pieces_image, Symmetry.mem_set]
    exact hp.mem_occupiedBy
  · intro s
    simp only [occupied_image, occupiedBy_image, Symmetry.mem_set]
    rw [hp.mem_occupied]
    constructor
    · rintro ⟨c, hc⟩
      exact ⟨σ.color c, by rwa [Symmetry.color_color]⟩
    · rintro ⟨c, hc⟩
      exact ⟨σ.color c, hc⟩

theorem Sound.image (hp : p.Sound) (σ : Symmetry) : (p.image σ).Sound :=
  ⟨hp.toConsistent.image σ, fun c => by rw [count_image]; exact hp.one_king _⟩

theorem Sound.king?_image (hp : p.Sound) (σ : Symmetry) (c : Color) :
    (p.image σ).king? c = (p.king? (σ.color c)).map σ.square := by
  obtain ⟨s, hs, hking⟩ := hp.exists_king (σ.color c)
  rw [hs, Option.map_some, (hp.image σ).king?_eq_some_iff,
    pieceAt?_eq_some_iff (hp.toConsistent.image σ), pieces_image, Symmetry.mem_set,
    Symmetry.square_square, ← pieceAt?_eq_some_iff hp.toConsistent, hking]

theorem attackers_image (σ : Symmetry) (p : Position) (s : Square) (c : Color) :
    (p.image σ).attackers (σ.square s) c = σ.set (p.attackers s (σ.color c)) := by
  have himage : ∀ k c, Piece.attacks k c (σ.square s) (σ.set p.occupied) =
      σ.set (Piece.attacks k (σ.color c) s p.occupied) := fun k c => by
    rw [← Piece.attacks_image, Symmetry.color_color]
  have hpawn := himage .pawn c.opponent
  have hknight := himage .knight c
  have hking := himage .king c
  have hbishop := himage .bishop c
  have hrook := himage .rook c
  simp only [Piece.attacks, Symmetry.color_opponent] at hpawn hknight hking hbishop hrook
  simp only [attackers, occupied_image, pieces_image, hpawn, hknight, hking, hbishop, hrook,
    Symmetry.set_or, Symmetry.set_and]

theorem Sound.checkers?_image (hp : p.Sound) (σ : Symmetry) :
    (p.image σ).checkers? = p.checkers?.map σ.set := by
  simp only [checkers?, hp.king?_image, turn_image, Symmetry.color_color, Option.map_map,
    Function.comp_def, attackers_image, Symmetry.color_opponent]

/-- The side to move is in check exactly if it is on the image. -/
theorem Sound.inCheck?_image (hp : p.Sound) (σ : Symmetry) :
    (p.image σ).inCheck? = p.inCheck? := by
  simp only [inCheck?, hp.checkers?_image, Option.map_map, Function.comp_def,
    Symmetry.isEmpty_set]

end Position

end ChessEval
