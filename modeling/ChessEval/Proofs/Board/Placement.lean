import ChessEval.Board.Play
import ChessEval.Proofs.Board.SquareSet

/-! The pieces of a position as a relation between colors, kinds and squares: what putting, taking
and exchanging do to it, and the positions whose sets agree with each other. -/
namespace ChessEval

variable {p q : Position} {x : Placed} {off on l : List Placed} {c c' : Color} {k k' : Piece}
  {s t : Square}

/-- Two results that are one and the same. -/
theorem pair_unique {α β : Type} {x : Option (α × β)} {a a' : α} {b b' : β}
    (h : x = some (a, b)) (h' : x = some (a', b')) : a = a' ∧ b = b' :=
  Prod.mk.inj (Option.some.inj (h.symm.trans h'))

@[simp] theorem Color.opponent_ne_self (c : Color) : c.opponent ≠ c := by cases c <;> decide

theorem Color.eq_or_eq_opponent (c c' : Color) : c = c' ∨ c = c'.opponent := by
  cases c <;> cases c' <;> simp [opponent]

namespace PieceSets

@[simp] theorem get_set (a : PieceSets) (k k' : Piece) (b : Bitboard) :
    (a.set k b).get k' = if k' = k then b else a.get k' := by
  cases k <;> cases k' <;> rfl

theorem ext {a b : PieceSets} (h : ∀ k, a.get k = b.get k) : a = b := by
  cases a
  cases b
  congr 1
  · exact h .pawn
  · exact h .knight
  · exact h .bishop
  · exact h .rook
  · exact h .queen
  · exact h .king

end PieceSets

namespace Position

@[simp] theorem army_setArmy (p : Position) (c c' : Color) (a : Army) :
    (p.setArmy c a).army c' = if c' = c then a else p.army c' := by
  cases c <;> cases c' <;> rfl

theorem pieces_put (p : Position) (x : Placed) :
    (p.put x).pieces c k =
      if c = x.color ∧ k = x.piece then (p.pieces c k).insert x.square else p.pieces c k := by
  change ((p.setArmy _ _).army c).pieces.get k = _
  rw [army_setArmy]
  by_cases hc : c = x.color
  · subst hc
    by_cases hk : k = x.piece <;> simp [Army.put, pieces, hk]
  · simp [hc, pieces]

theorem pieces_take (p : Position) (x : Placed) :
    (p.take x).pieces c k =
      if c = x.color ∧ k = x.piece then (p.pieces c k).erase x.square else p.pieces c k := by
  change ((p.setArmy _ _).army c).pieces.get k = _
  rw [army_setArmy]
  by_cases hc : c = x.color
  · subst hc
    by_cases hk : k = x.piece <;> simp [Army.take, pieces, hk]
  · simp [hc, pieces]

theorem occupiedBy_put (p : Position) (x : Placed) :
    (p.put x).occupiedBy c =
      if c = x.color then (p.occupiedBy c).insert x.square else p.occupiedBy c := by
  change ((p.setArmy _ _).army c).occupied = _
  rw [army_setArmy]
  by_cases hc : c = x.color
  · subst hc
    simp [Army.put, occupiedBy]
  · simp [hc, occupiedBy]

theorem occupiedBy_take (p : Position) (x : Placed) :
    (p.take x).occupiedBy c =
      if c = x.color then (p.occupiedBy c).erase x.square else p.occupiedBy c := by
  change ((p.setArmy _ _).army c).occupied = _
  rw [army_setArmy]
  by_cases hc : c = x.color
  · subst hc
    simp [Army.take, occupiedBy]
  · simp [hc, occupiedBy]

theorem mem_pieces_foldl_put : s ∈ (l.foldl put p).pieces c k ↔ ⟨c, k, s⟩ ∈ l ∨ s ∈ p.pieces c k := by
  induction l generalizing p with
  | nil => simp
  | cons x l ih =>
    rw [List.foldl_cons, ih, pieces_put, List.mem_cons]
    obtain ⟨c', k', s'⟩ := x
    by_cases h : c = c' ∧ k = k'
    · simp [h]
      tauto
    · rw [if_neg h]
      simp only [Placed.mk.injEq]
      tauto

theorem mem_pieces_foldl_take :
    s ∈ (l.foldl take p).pieces c k ↔ s ∈ p.pieces c k ∧ ⟨c, k, s⟩ ∉ l := by
  induction l generalizing p with
  | nil => simp
  | cons x l ih =>
    rw [List.foldl_cons, ih, pieces_take, List.mem_cons]
    obtain ⟨c', k', s'⟩ := x
    by_cases h : c = c' ∧ k = k'
    · simp [h]
      tauto
    · rw [if_neg h]
      simp only [Placed.mk.injEq]
      tauto

theorem mem_occupiedBy_foldl_put :
    s ∈ (l.foldl put p).occupiedBy c ↔ (∃ k, ⟨c, k, s⟩ ∈ l) ∨ s ∈ p.occupiedBy c := by
  induction l generalizing p with
  | nil => simp
  | cons x l ih =>
    rw [List.foldl_cons, ih, occupiedBy_put]
    obtain ⟨c', k', s'⟩ := x
    by_cases h : c = c'
    · simp [h, exists_or]
      tauto
    · simp [h]

theorem mem_occupiedBy_foldl_take :
    s ∈ (l.foldl take p).occupiedBy c ↔ s ∈ p.occupiedBy c ∧ ∀ k, ⟨c, k, s⟩ ∉ l := by
  induction l generalizing p with
  | nil => simp
  | cons x l ih =>
    rw [List.foldl_cons, ih, occupiedBy_take]
    obtain ⟨c', k', s'⟩ := x
    by_cases h : c = c'
    · simp [h, forall_and]
      tauto
    · simp [h]

theorem mem_occupied_foldl_put :
    s ∈ (l.foldl put p).occupied ↔ (∃ x ∈ l, x.square = s) ∨ s ∈ p.occupied := by
  induction l generalizing p with
  | nil => simp
  | cons x l ih =>
    rw [List.foldl_cons, ih]
    change _ ∨ s ∈ p.occupied.insert x.square ↔ _
    rw [Bitboard.mem_insert, List.exists_mem_cons_iff, eq_comm, or_left_comm, or_assoc]

theorem mem_occupied_foldl_take :
    s ∈ (l.foldl take p).occupied ↔ s ∈ p.occupied ∧ ∀ x ∈ l, x.square ≠ s := by
  induction l generalizing p with
  | nil => simp
  | cons x l ih =>
    rw [List.foldl_cons, ih]
    change s ∈ p.occupied.erase x.square ∧ _ ↔ _
    rw [Bitboard.mem_erase, List.forall_mem_cons, ne_comm]
    tauto

/-- An exchange takes the first pieces off and puts the others on. -/
theorem mem_pieces_exchange :
    s ∈ (p.exchange off on).pieces c k ↔
      ⟨c, k, s⟩ ∈ on ∨ (s ∈ p.pieces c k ∧ ⟨c, k, s⟩ ∉ off) := by
  rw [exchange, mem_pieces_foldl_put, mem_pieces_foldl_take]

theorem mem_occupiedBy_exchange :
    s ∈ (p.exchange off on).occupiedBy c ↔
      (∃ k, ⟨c, k, s⟩ ∈ on) ∨ (s ∈ p.occupiedBy c ∧ ∀ k, ⟨c, k, s⟩ ∉ off) := by
  rw [exchange, mem_occupiedBy_foldl_put, mem_occupiedBy_foldl_take]

theorem mem_occupied_exchange :
    s ∈ (p.exchange off on).occupied ↔
      (∃ x ∈ on, x.square = s) ∨ (s ∈ p.occupied ∧ ∀ x ∈ off, x.square ≠ s) := by
  rw [exchange, mem_occupied_foldl_put, mem_occupied_foldl_take]

theorem army_ext (hp : ∀ k s, s ∈ p.pieces c k ↔ s ∈ q.pieces c k)
    (ho : ∀ s, s ∈ p.occupiedBy c ↔ s ∈ q.occupiedBy c) : p.army c = q.army c := by
  have hpieces : (p.army c).pieces = (q.army c).pieces :=
    PieceSets.ext fun k => Bitboard.ext (hp k)
  have hocc : (p.army c).occupied = (q.army c).occupied := Bitboard.ext ho
  rw [show p.army c = ⟨(p.army c).pieces, (p.army c).occupied⟩ from rfl, hpieces, hocc]

/-- The same pieces on the same squares, whatever the turn, the rights and the clocks. -/
structure SameBoard (p q : Position) : Prop where
  army : ∀ c, p.army c = q.army c
  occupied : p.occupied = q.occupied

namespace SameBoard

theorem of_mem (hp : ∀ c k s, s ∈ p.pieces c k ↔ s ∈ q.pieces c k)
    (ho : ∀ c s, s ∈ p.occupiedBy c ↔ s ∈ q.occupiedBy c)
    (ha : ∀ s, s ∈ p.occupied ↔ s ∈ q.occupied) : p.SameBoard q :=
  ⟨fun c => army_ext (hp c) (ho c), Bitboard.ext ha⟩

theorem pieces (h : p.SameBoard q) : p.pieces c k = q.pieces c k := by
  rw [Position.pieces, h.army, Position.pieces]

theorem occupiedBy (h : p.SameBoard q) : p.occupiedBy c = q.occupiedBy c := by
  rw [Position.occupiedBy, h.army, Position.occupiedBy]

theorem pieceAt? (h : p.SameBoard q) : p.pieceAt? = q.pieceAt? := by
  funext s
  simp only [Position.pieceAt?, h.pieces, h.occupiedBy, h.occupied]

theorem exchange (h : p.SameBoard q) (off on : List Placed) :
    (p.exchange off on).SameBoard (q.exchange off on) := by
  refine of_mem ?_ ?_ ?_ <;> intros
  · rw [mem_pieces_exchange, mem_pieces_exchange, h.pieces]
  · rw [mem_occupiedBy_exchange, mem_occupiedBy_exchange, h.occupiedBy]
  · rw [mem_occupied_exchange, mem_occupied_exchange, h.occupied]

theorem symm (h : p.SameBoard q) : q.SameBoard p := ⟨fun c => (h.army c).symm, h.occupied.symm⟩

theorem trans {r : Position} (h : p.SameBoard q) (h' : q.SameBoard r) : p.SameBoard r :=
  ⟨fun c => (h.army c).trans (h'.army c), h.occupied.trans h'.occupied⟩

end SameBoard

/-- The sets of a position agree: no square holds two pieces, and the occupied squares are those
that hold one. -/
structure Consistent (p : Position) : Prop where
  unique : ∀ {s c k c' k'}, s ∈ p.pieces c k → s ∈ p.pieces c' k' → c = c' ∧ k = k'
  mem_occupiedBy : ∀ {s c}, s ∈ p.occupiedBy c ↔ ∃ k, s ∈ p.pieces c k
  mem_occupied : ∀ {s}, s ∈ p.occupied ↔ ∃ c, s ∈ p.occupiedBy c

/-- Positions that agree on the board and everywhere else. -/
theorem SameBoard.eq (h : p.SameBoard q) (ht : p.turn = q.turn)
    (he : p.enPassant = q.enPassant) (hc : p.castling = q.castling) (hh : p.hash = q.hash)
    (hm : p.halfmoves = q.halfmoves) (hn : p.fullmoves = q.fullmoves) : p = q := by
  have hw : p.white = q.white := h.army .white
  have hb : p.black = q.black := h.army .black
  have ho := h.occupied
  cases p
  cases q
  simp_all

theorem SameBoard.consistent (h : p.SameBoard q) (hq : q.Consistent) : p.Consistent := by
  refine ⟨?_, ?_, ?_⟩ <;> intros
  · simp only [h.pieces] at *
    exact hq.unique (by assumption) (by assumption)
  · simp only [h.pieces, h.occupiedBy]
    exact hq.mem_occupiedBy
  · simp only [h.occupiedBy, h.occupied]
    exact hq.mem_occupied

theorem pieceAt?_eq_some_iff (hp : p.Consistent) :
    p.pieceAt? s = some (c, k) ↔ s ∈ p.pieces c k := by
  constructor
  · intro h
    unfold pieceAt? at h
    split at h
    · obtain ⟨k', hk', he⟩ := Option.map_eq_some_iff.mp h
      obtain ⟨rfl, rfl⟩ := Prod.mk.inj he
      simpa using List.find?_some hk'
    · cases h
  · intro h
    have ho : s ∈ p.occupiedBy c := hp.mem_occupiedBy.mpr ⟨k, h⟩
    have hc : (if s ∈ p.occupiedBy .white then Color.white else .black) = c := by
      split
      · next hw =>
        obtain ⟨k', hk'⟩ := hp.mem_occupiedBy.mp hw
        exact (hp.unique hk' h).1
      · next hw => cases c <;> simp_all
    rw [pieceAt?, if_pos (hp.mem_occupied.mpr ⟨c, ho⟩)]
    simp only [hc]
    cases hf : Piece.all.find? fun k => s ∈ p.pieces c k with
    | none =>
      have := List.find?_eq_none.mp hf k (by cases k <;> decide)
      simp_all
    | some k' =>
      have hk' : s ∈ p.pieces c k' := by simpa using List.find?_some hf
      rw [(hp.unique hk' h).2]
      rfl

theorem pieceAt?_eq_none_iff (hp : p.Consistent) : p.pieceAt? s = none ↔ s ∉ p.occupied := by
  constructor
  · intro h ho
    obtain ⟨c, hc⟩ := hp.mem_occupied.mp ho
    obtain ⟨k, hk⟩ := hp.mem_occupiedBy.mp hc
    rw [(pieceAt?_eq_some_iff hp).mpr hk] at h
    cases h
  · intro h
    rw [pieceAt?, if_neg h]

theorem pieceAt?_ne_none_iff (hp : p.Consistent) : p.pieceAt? s ≠ none ↔ s ∈ p.occupied := by
  rw [ne_eq, pieceAt?_eq_none_iff hp, not_not]

theorem mem_occupiedBy_iff (hp : p.Consistent) :
    s ∈ p.occupiedBy c ↔ ∃ k, p.pieceAt? s = some (c, k) := by
  simp only [hp.mem_occupiedBy, pieceAt?_eq_some_iff hp]

/-- The sets of a position are told by the pieces on its squares. -/
theorem Consistent.sameBoard (hp : p.Consistent) (hq : q.Consistent)
    (h : p.pieceAt? = q.pieceAt?) : p.SameBoard q := by
  have hpieces (c : Color) (k : Piece) (s : Square) : s ∈ p.pieces c k ↔ s ∈ q.pieces c k := by
    rw [← pieceAt?_eq_some_iff hp, ← pieceAt?_eq_some_iff hq, h]
  have hocc (c : Color) (s : Square) : s ∈ p.occupiedBy c ↔ s ∈ q.occupiedBy c := by
    rw [hp.mem_occupiedBy, hq.mem_occupiedBy, exists_congr fun k => hpieces c k s]
  refine .of_mem hpieces hocc fun s => ?_
  rw [hp.mem_occupied, hq.mem_occupied, exists_congr fun c => hocc c s]

/-- The pieces to take off are counted everywhere, and whatever is counted where a piece is put is
taken off. -/
structure Reversible (p : Position) (off on : List Placed) : Prop where
  pieces : ∀ {c k s}, ⟨c, k, s⟩ ∈ off → s ∈ p.pieces c k
  occupiedBy : ∀ {c k s}, ⟨c, k, s⟩ ∈ off → s ∈ p.occupiedBy c
  occupied : ∀ {x}, x ∈ off → x.square ∈ p.occupied
  pieces_on : ∀ {c k s}, ⟨c, k, s⟩ ∈ on → s ∈ p.pieces c k → ⟨c, k, s⟩ ∈ off
  occupiedBy_on : ∀ {c k s}, ⟨c, k, s⟩ ∈ on → s ∈ p.occupiedBy c → ∃ k', ⟨c, k', s⟩ ∈ off
  occupied_on : ∀ {x}, x ∈ on → x.square ∈ p.occupied → ∃ y ∈ off, y.square = x.square

/-- Exchanging back restores the board. -/
theorem Reversible.exchange_back (h : p.Reversible off on) :
    ((p.exchange off on).exchange on off).SameBoard p := by
  refine SameBoard.of_mem ?_ ?_ ?_
  · intro c k s
    simp only [mem_pieces_exchange]
    constructor
    · rintro (hs | ⟨hs | hs, hn⟩)
      · exact h.pieces hs
      · exact (hn hs).elim
      · exact hs.1
    · intro hs
      by_cases hoff : ⟨c, k, s⟩ ∈ off
      · exact Or.inl hoff
      · exact Or.inr ⟨Or.inr ⟨hs, hoff⟩, fun hon => hoff (h.pieces_on hon hs)⟩
  · intro c s
    simp only [mem_occupiedBy_exchange]
    constructor
    · rintro (⟨k, hs⟩ | ⟨⟨k, hs⟩ | hs, hn⟩)
      · exact h.occupiedBy hs
      · exact (hn k hs).elim
      · exact hs.1
    · intro hs
      by_cases hoff : ∃ k, ⟨c, k, s⟩ ∈ off
      · exact Or.inl hoff
      · refine Or.inr ⟨Or.inr ⟨hs, not_exists.mp hoff⟩, fun k hon => hoff (h.occupiedBy_on hon hs)⟩
  · intro s
    simp only [mem_occupied_exchange]
    constructor
    · rintro (⟨x, hx, rfl⟩ | ⟨⟨x, hx, hs⟩ | hs, hn⟩)
      · exact h.occupied hx
      · exact (hn x hx hs).elim
      · exact hs.1
    · intro hs
      by_cases hoff : ∃ x ∈ off, x.square = s
      · exact Or.inl hoff
      · refine Or.inr ⟨Or.inr ⟨hs, fun x hx he => hoff ⟨x, hx, he⟩⟩, fun x hon he => hoff ?_⟩
        rw [← he] at hs ⊢
        exact h.occupied_on hon hs

/-- Taking the first pieces off and putting the others on is possible: the first are there, the
others go to distinct squares that are empty or become empty. -/
structure Exchangeable (p : Position) (off on : List Placed) : Prop where
  nodup_off : off.Nodup
  nodup_on : on.Nodup
  present : ∀ x ∈ off, p.pieceAt? x.square = some (x.color, x.piece)
  free : ∀ x ∈ on, p.pieceAt? x.square = none ∨ ∃ y ∈ off, y.square = x.square
  distinct : ∀ x ∈ on, ∀ y ∈ on, x.square = y.square → x = y

namespace Exchangeable

theorem mem_of_mem_off (h : p.Exchangeable off on) (hp : p.Consistent) (hx : ⟨c, k, s⟩ ∈ off) :
    s ∈ p.pieces c k := by
  have hx := h.present _ hx
  rwa [pieceAt?_eq_some_iff hp] at hx

theorem mem_off_of_mem_on (h : p.Exchangeable off on) (hp : p.Consistent) (hx : ⟨c, k, s⟩ ∈ on)
    (hs : s ∈ p.pieces c' k') : ⟨c', k', s⟩ ∈ off := by
  rcases h.free _ hx with hn | ⟨⟨cy, ky, sy⟩, hy, rfl⟩
  · rw [(pieceAt?_eq_some_iff hp).mpr hs] at hn
    cases hn
  · obtain ⟨rfl, rfl⟩ := hp.unique (h.mem_of_mem_off hp hy) hs
    exact hy

theorem consistent (h : p.Exchangeable off on) (hp : p.Consistent) :
    (p.exchange off on).Consistent := by
  refine ⟨?_, ?_, ?_⟩
  · intro s c k c' k' hs hs'
    rw [mem_pieces_exchange] at hs hs'
    rcases hs with hs | ⟨hs, hn⟩ <;> rcases hs' with hs' | ⟨hs', hn'⟩
    · simpa using h.distinct _ hs _ hs' rfl
    · exact (hn' (h.mem_off_of_mem_on hp hs hs')).elim
    · exact (hn (h.mem_off_of_mem_on hp hs' hs)).elim
    · exact hp.unique hs hs'
  · intro s c
    simp only [mem_occupiedBy_exchange, mem_pieces_exchange, exists_or, hp.mem_occupiedBy]
    refine or_congr_right ⟨?_, ?_⟩
    · rintro ⟨⟨k, hk⟩, hn⟩
      exact ⟨k, hk, hn k⟩
    · rintro ⟨k, hk, hn⟩
      refine ⟨⟨k, hk⟩, fun k' hk' => hn ?_⟩
      rwa [(hp.unique hk (h.mem_of_mem_off hp hk')).2]
  · intro s
    simp only [mem_occupied_exchange, mem_occupiedBy_exchange, exists_or, hp.mem_occupied]
    refine or_congr ⟨?_, ?_⟩ ⟨?_, ?_⟩
    · rintro ⟨⟨c, k, s'⟩, hx, rfl⟩
      exact ⟨c, k, hx⟩
    · rintro ⟨c, k, hx⟩
      exact ⟨_, hx, rfl⟩
    · rintro ⟨⟨c, hc⟩, hn⟩
      exact ⟨c, hc, fun k hk => hn _ hk rfl⟩
    · rintro ⟨c, hc, hn⟩
      refine ⟨⟨c, hc⟩, ?_⟩
      rintro ⟨c', k', s'⟩ hx rfl
      obtain ⟨k, hk⟩ := hp.mem_occupiedBy.mp hc
      obtain ⟨rfl, rfl⟩ := hp.unique hk (h.mem_of_mem_off hp hx)
      exact hn k hx

theorem pieceAt?_exchange (h : p.Exchangeable off on) (hp : p.Consistent) :
    (p.exchange off on).pieceAt? s = some (c, k) ↔
      ⟨c, k, s⟩ ∈ on ∨ (p.pieceAt? s = some (c, k) ∧ ⟨c, k, s⟩ ∉ off) := by
  rw [pieceAt?_eq_some_iff (h.consistent hp), mem_pieces_exchange, pieceAt?_eq_some_iff hp]

theorem pieceAt?_of_mem_on (h : p.Exchangeable off on) (hp : p.Consistent) (hx : x ∈ on) :
    (p.exchange off on).pieceAt? x.square = some (x.color, x.piece) :=
  (h.pieceAt?_exchange hp).mpr (Or.inl hx)

theorem pieceAt?_of_mem_off (h : p.Exchangeable off on) (hp : p.Consistent) (hx : x ∈ off)
    (hn : ∀ y ∈ on, y.square ≠ x.square) : (p.exchange off on).pieceAt? x.square = none := by
  apply Option.eq_none_iff_forall_not_mem.mpr
  rintro ⟨c, k⟩ hs
  rcases (h.pieceAt?_exchange hp).mp hs with hon | ⟨hs, hoff⟩
  · exact hn _ hon rfl
  · rw [h.present x hx] at hs
    obtain ⟨rfl, rfl⟩ := Prod.mk.inj (Option.some.inj hs)
    exact hoff hx

theorem pieceAt?_of_not_mem (h : p.Exchangeable off on) (hp : p.Consistent)
    (hon : ∀ x ∈ on, x.square ≠ s) (hoff : ∀ x ∈ off, x.square ≠ s) :
    (p.exchange off on).pieceAt? s = p.pieceAt? s := by
  apply Option.ext
  rintro ⟨c, k⟩
  rw [h.pieceAt?_exchange hp]
  constructor
  · rintro (hs | hs)
    · exact (hon _ hs rfl).elim
    · exact hs.1
  · intro hs
    exact Or.inr ⟨hs, fun hm => hoff _ hm rfl⟩

theorem pieceAt?_exchange_one (h : p.Exchangeable off [x]) (hp : p.Consistent) (s : Square) :
    (p.exchange off [x]).pieceAt? s =
      if s = x.square then some (x.color, x.piece)
      else if ∃ y ∈ off, y.square = s then none else p.pieceAt? s := by
  have hx : ∀ y ∈ [x], y.square ≠ s ↔ s ≠ x.square := fun y hy => by
    rw [List.mem_singleton.mp hy, ne_comm]
  by_cases hs : s = x.square
  · rw [if_pos hs, hs]
    exact h.pieceAt?_of_mem_on hp (List.mem_singleton_self x)
  · rw [if_neg hs]
    split
    · next hoff =>
      obtain ⟨y, hy, rfl⟩ := hoff
      exact h.pieceAt?_of_mem_off hp hy fun z hz => (hx z hz).mpr hs
    · next hoff =>
      exact h.pieceAt?_of_not_mem hp (fun z hz => (hx z hz).mpr hs)
        fun y hy he => hoff ⟨y, hy, he⟩

theorem reversible (h : p.Exchangeable off on) (hp : p.Consistent) : p.Reversible off on where
  pieces hx := h.mem_of_mem_off hp hx
  occupiedBy hx := hp.mem_occupiedBy.mpr ⟨_, h.mem_of_mem_off hp hx⟩
  occupied hx := hp.mem_occupied.mpr ⟨_, hp.mem_occupiedBy.mpr ⟨_, h.mem_of_mem_off hp hx⟩⟩
  pieces_on hx hs := h.mem_off_of_mem_on hp hx hs
  occupiedBy_on hx hs := by
    obtain ⟨k, hk⟩ := hp.mem_occupiedBy.mp hs
    exact ⟨k, h.mem_off_of_mem_on hp hx hk⟩
  occupied_on hx hs := by
    obtain ⟨c, hc⟩ := hp.mem_occupied.mp hs
    obtain ⟨k, hk⟩ := hp.mem_occupiedBy.mp hc
    exact ⟨_, h.mem_off_of_mem_on hp hx hk, rfl⟩

end Exchangeable

end Position

end ChessEval
