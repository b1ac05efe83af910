import ChessEval.Proofs.Board.Vacated

/-! When the trials of all candidates come to an end, and which en passant captures they keep. -/
namespace ChessEval

open Square Rules

variable {p q next : Position} {undo : Undo} {m n : Move} {c : Color} {k : Piece} {s t : Square}
  {l r : List Move}

/-- The own king stands where an en passant capture takes a piece. -/
def TakesOwnKing (p : Position) (m : Move) : Prop :=
  m.kind = .enPassant ∧ p.pieceAt? (beside m) = some (p.turn, .king)

/-- The later move starts where an en passant capture tried before it arrived. -/
def Clash (m n : Move) : Prop := m.kind = .enPassant ∧ n.origin = m.target

/-- After an en passant capture no piece left to the opponent attacks the own king. -/
def Spares (p : Position) (m : Move) : Prop :=
  ∀ s, p.pieceAt? s = some (p.turn, .king) → ∀ u k, p.pieceAt? u = some (p.turn.opponent, k) →
    u ≠ beside m → ¬ Attacks (after p.pieceAt? p.turn m) p.turn.opponent k u s

/-- The boards on which candidates are tried. -/
def Scratch (p q : Position) : Prop :=
  q = p ∨ ∃ s t, p.enPassant = some t ∧ PawnStep p.turn s t ∧ q = p.vacated t

namespace AfterEnPassant

theorem pieceAt?_of_king? (h : AfterEnPassant p m next) (hp : p.Consistent)
    (hs : next.king? c = some s) :
    p.pieceAt? s = some (c, .king) ∧ s ≠ beside m := by
  rcases h.mem_pieces.mp (Bitboard.first?_eq_some_iff.mp hs).1 with ⟨-, hk, -⟩ | ⟨hs, -, hb⟩
  · cases hk
  · exact ⟨(Position.pieceAt?_eq_some_iff hp).mpr hs, hb⟩

/-- An en passant capture takes a king exactly if one stands on the square beside. -/
theorem king?_eq_none_iff (h : AfterEnPassant p m next) (hp : p.Sound) (hm : Permitted p m)
    (he : m.kind = .enPassant) :
    next.king? c = none ↔ p.pieceAt? (beside m) = some (c, .king) := by
  obtain ⟨s, hs, hking⟩ := hp.exists_king c
  constructor
  · intro hn
    by_contra hb
    rw [Position.king?, Bitboard.first?_eq_none_iff] at hn
    refine hn s (h.mem_pieces.mpr (Or.inr ⟨?_, ?_, ?_⟩))
    · exact (Position.pieceAt?_eq_some_iff hp.toConsistent).mp ((hking s).mpr rfl)
    · rintro rfl
      have := (hm.of_enPassant he).1.symm.trans ((hking _).mpr rfl)
      cases this
    · rintro rfl
      exact hb ((hking _).mpr rfl)
  · intro hb
    cases hn : next.king? c with
    | none => rfl
    | some u =>
      obtain ⟨hu, hne⟩ := h.pieceAt?_of_king? hp.toConsistent hn
      exact (hne (hp.king_unique hu hb)).elim

theorem spares_iff (h : AfterEnPassant p m next) (hp : p.Sound) (hm : Permitted p m)
    (he : m.kind = .enPassant) (hs : next.king? p.turn = some s) :
    (next.attackers s p.turn.opponent).isEmpty = true ↔ Spares p m := by
  obtain ⟨hking, -⟩ := h.pieceAt?_of_king? hp.toConsistent hs
  have ho := (hm.of_enPassant he).1
  have hmem : ∀ u k, u ∈ next.pieces p.turn.opponent k ↔
      p.pieceAt? u = some (p.turn.opponent, k) ∧ u ≠ beside m := by
    intro u k
    rw [h.mem_pieces, Position.pieceAt?_eq_some_iff hp.toConsistent]
    constructor
    · rintro (⟨hc, -, -⟩ | ⟨hu, -, hb⟩)
      · exact (Color.opponent_ne_self _ hc).elim
      · exact ⟨hu, hb⟩
    · rintro ⟨hu, hb⟩
      refine Or.inr ⟨hu, ?_, hb⟩
      rintro rfl
      rw [← Position.pieceAt?_eq_some_iff hp.toConsistent, ho] at hu
      exact Color.opponent_ne_self p.turn (Prod.mk.inj (Option.some.inj hu)).1.symm
  rw [Bitboard.isEmpty_iff]
  simp only [Position.mem_attackers (b := after p.pieceAt? p.turn m) fun u => h.mem_occupied.symm,
    hmem, not_exists, not_and, and_imp]
  constructor
  · intro hall s' hs' u k hu hb
    rw [hp.king_unique hs' hking]
    exact hall u k hu hb
  · intro hsp u k hu hb
    exact hsp s hking u k hu hb

end AfterEnPassant

namespace Scratch

theorem pieceAt?_eq_none (hq : Scratch p q) (hm : Permitted p m)
    (h : q.pieceAt? m.origin = none) : ∃ t, p.enPassant = some t ∧ m.origin = t := by
  obtain ⟨k, hk⟩ := hm.origin
  rcases hq with rfl | ⟨s, t, ht, -, rfl⟩
  · rw [hk] at h
    cases h
  · by_contra hn
    rw [Position.pieceAt?_vacated fun ho => hn ⟨t, ht, ho⟩, hk] at h
    cases h

/-- Trying a move that is no en passant capture leaves the board as it was. -/
theorem exists_trial (hq : Scratch p q) (hp : p.Sound) (hm : Permitted p m)
    (he : m.kind ≠ .enPassant) (ho : q.pieceAt? m.origin ≠ none)
    (hk : p.pieceAt? m.target ≠ some (p.turn.opponent, .king)) :
    ∃ next undo s, q.play? m = some (next, undo) ∧ next.king? p.turn = some s ∧
      next.takeBack undo = q := by
  rcases hq with rfl | ⟨s, t, -, hstep, rfl⟩
  · obtain ⟨next, undo, s, hplay, hs, hback, -⟩ := hp.exists_trial hm (fun h => (he h).elim) hk
    exact ⟨next, undo, s, hplay, hs, hback⟩
  · have hot : m.origin ≠ t := by
      rintro rfl
      exact ho Position.pieceAt?_vacated_self
    obtain ⟨k, d, hd, hking⟩ := exists_changes hp hm ⟨s, hstep⟩ hot he
    obtain ⟨next, undo, hplay, hs, hback⟩ := hd.exists_play
    rw [← hs.pieces, ← Position.king?_ne_none_iff] at hking
    obtain ⟨s, hs⟩ := Option.ne_none_iff_exists'.mp hking
    exact ⟨next, undo, s, hplay, hs, hback⟩

theorem exists_enPassant_trial (hq : Scratch p q) (hp : p.Sound) (hm : Permitted p m)
    (he : m.kind = .enPassant) :
    ∃ next undo, q.play? m = some (next, undo) ∧ next.takeBack undo = p.vacated m.target ∧
      AfterEnPassant p m next := by
  refine ChessEval.exists_enPassant_trial hp.toConsistent hm he ?_
  rcases hq with rfl | ⟨s, t, ht, -, rfl⟩
  · exact Or.inl rfl
  · obtain rfl := Option.some.inj (ht.symm.trans (hm.of_enPassant he).2.1)
    exact Or.inr rfl

/-- After an en passant capture the moves from its target have no piece left to move. -/
theorem pieceAt?_vacated_iff (hq : Scratch p q) (hm : Permitted p m) (he : m.kind = .enPassant)
    (hn : Permitted p n) :
    (p.vacated m.target).pieceAt? n.origin ≠ none ↔
      q.pieceAt? n.origin ≠ none ∧ ¬ Clash m n := by
  by_cases ht : n.origin = m.target
  · rw [ht, Position.pieceAt?_vacated_self]
    simp [Clash, he, ht]
  · obtain ⟨k, hk⟩ := hn.origin
    rw [Position.pieceAt?_vacated ht, hk]
    refine iff_of_true (by simp) ⟨fun h => ?_, fun h => ht h.2⟩
    obtain ⟨t, ht', hot⟩ := hq.pieceAt?_eq_none hn h
    exact ht (hot.trans (Option.some.inj (ht'.symm.trans (hm.of_enPassant he).2.1)))

theorem of_enPassant (hm : Permitted p m) (he : m.kind = .enPassant) :
    Scratch p (p.vacated m.target) :=
  Or.inr ⟨_, _, (hm.of_enPassant he).2.1, (hm.of_enPassant he).2.2, rfl⟩

end Scratch

/-- A candidate that does not arrive at the opponent's king. -/
structure Trial (p : Position) (m : Move) : Prop where
  permitted : Permitted p m
  target : p.pieceAt? m.target ≠ some (p.turn.opponent, .king)

namespace Position

/-- The sieve passes over the moves that arrive at the opponent's king. -/
theorem sift?_filter (us : Color) (s : Square) (q : Position) (l : List Move) :
    sift? us s q l = sift? us s q (l.filter (·.target ≠ s)) := by
  induction l generalizing q with
  | nil => rfl
  | cons m l ih =>
    by_cases ht : m.target = s
    · rw [sift?, if_pos ht, ih, List.filter_cons_of_neg (by simpa using ht)]
    · rw [List.filter_cons_of_pos (by simpa using ht), sift?, sift?, if_neg ht, if_neg ht]
      simp only [ih]

theorem sift?_sublist {us : Color} (h : sift? us s q l = some r) : r.Sublist l := by
  induction l generalizing q r with
  | nil =>
    obtain rfl := Option.some.inj h
    exact List.Sublist.slnil
  | cons m l ih =>
    rw [sift?] at h
    split at h
    · exact (ih h).cons m
    · simp only [Option.bind_eq_bind, Option.bind_eq_some_iff, Option.pure_def, Option.some.injEq,
        Prod.exists] at h
      obtain ⟨next, undo, -, king, -, rest, hrest, h⟩ := h
      split at h
      · subst h
        exact (ih hrest).cons_cons m
      · subst h
        exact (ih hrest).cons m

end Position

theorem Trial.target_ne (h : Trial p m) (hking : p.pieceAt? s = some (p.turn.opponent, .king)) :
    m.target ≠ s := by
  rintro rfl
  exact h.target hking

theorem exists_bind_some_iff {α β : Type} {x : Option α} {f : α → β} :
    (∃ b, (x.bind fun a => some (f a)) = some b) ↔ ∃ a, x = some a := by
  cases x <;> simp

section Sift

variable (hp : p.Sound) (hking : p.pieceAt? s = some (p.turn.opponent, .king))

include hp hking

/-- The trials come to an end exactly if no capture takes the own king and no move starts where a
capture tried before it arrived. -/
theorem exists_sift?_iff (hl : ∀ m ∈ l, Trial p m) (hq : Scratch p q) :
    (∃ r, Position.sift? p.turn s q l = some r) ↔
      (∀ m ∈ l, ¬ TakesOwnKing p m ∧ q.pieceAt? m.origin ≠ none) ∧
        l.Pairwise fun m n => ¬ Clash m n := by
  -- the board changes along the list: an en passant capture leaves its target vacated
  induction l generalizing q with
  | nil => exact iff_of_true ⟨[], rfl⟩ ⟨by simp, List.Pairwise.nil⟩
  | cons m l ih =>
    obtain ⟨hm', hl⟩ := List.forall_mem_cons.mp hl
    have hm := hm'.permitted
    rw [Position.sift?, if_neg (hm'.target_ne hking), List.forall_mem_cons, List.pairwise_cons]
    by_cases he : m.kind = .enPassant
    · obtain ⟨next, undo, hplay, hback, hafter⟩ := hq.exists_enPassant_trial hp hm he
      have ho := Position.origin_of_play? hplay
      have hrest : (∀ n ∈ l, ¬ TakesOwnKing p n ∧ (p.vacated m.target).pieceAt? n.origin ≠ none) ↔
          (∀ n ∈ l, ¬ TakesOwnKing p n ∧ q.pieceAt? n.origin ≠ none) ∧ ∀ n ∈ l, ¬ Clash m n := by
        rw [← forall₂_and]
        refine forall₂_congr fun n hn => ?_
        rw [hq.pieceAt?_vacated_iff hm he (hl n hn).permitted, and_assoc]
      have hown := hafter.king?_eq_none_iff (c := p.turn) hp hm he
      simp only [hplay, Option.bind_eq_bind, Option.bind_some, Option.pure_def]
      cases hn : next.king? p.turn with
      | none =>
        have hb : TakesOwnKing p m := ⟨he, hown.mp hn⟩
        simp [hb]
      | some u =>
        have hb : ¬ TakesOwnKing p m := fun hb => by
          rw [hown.mpr hb.2] at hn
          cases hn
        simp only [Option.bind_some, exists_bind_some_iff, hback,
          ih hl (.of_enPassant hm he), hrest, hb]
        tauto
    · have hb : ¬ TakesOwnKing p m := fun h => he h.1
      have hc : ∀ n ∈ l, ¬ Clash m n := fun n _ h => he h.1
      by_cases ho : q.pieceAt? m.origin = none
      · simp [Position.play?, ho]
      · obtain ⟨next, undo, u, hplay, hu, hback⟩ :=
          hq.exists_trial hp hm he ho hm'.target
        simp only [hplay, hu, Option.bind_eq_bind, Option.bind_some, Option.pure_def, hback,
          exists_bind_some_iff, ih hl hq]
        tauto

/-- Of the en passant captures the trials keep those that spare the own king. -/
theorem mem_sift?_iff_spares (hl : ∀ m ∈ l, Trial p m) (hq : Scratch p q)
    (hr : Position.sift? p.turn s q l = some r) (hm : m ∈ l) (he : m.kind = .enPassant)
    (hn : l.Nodup) : m ∈ r ↔ Spares p m := by
  induction l generalizing q r with
  | nil => cases hm
  | cons n l ih =>
    obtain ⟨hnl, hnodup⟩ := List.nodup_cons.mp hn
    obtain ⟨hn', hl⟩ := List.forall_mem_cons.mp hl
    have hpn := hn'.permitted
    rw [Position.sift?, if_neg (hn'.target_ne hking)] at hr
    simp only [Option.bind_eq_bind, Option.bind_eq_some_iff, Option.pure_def, Option.some.injEq,
      Prod.exists] at hr
    obtain ⟨next, undo, hplay, u, hu, rest, hrest, rfl⟩ := hr
    by_cases hen : n.kind = .enPassant
    · obtain ⟨next', undo', hplay', hback, hafter⟩ := hq.exists_enPassant_trial hp hpn hen
      obtain ⟨rfl, rfl⟩ := pair_unique hplay hplay'
      rw [hback] at hrest
      have hspares := hafter.spares_iff hp hpn hen hu
      rcases List.mem_cons.mp hm with rfl | hm
      · have hnr : m ∉ rest := fun h => hnl ((Position.sift?_sublist hrest).subset h)
        split
        · next h => simp [hspares.mp h]
        · next h => simp [hnr, mt hspares.mpr h]
      · have hne : m ≠ n := fun h => hnl (h ▸ hm)
        rw [← ih hl (.of_enPassant hpn hen) hrest hm hnodup]
        split <;> simp [hne]
    · have ho := Position.origin_of_play? hplay
      obtain ⟨next', undo', u', hplay', -, hback⟩ :=
        hq.exists_trial hp hpn hen ho hn'.target
      obtain ⟨rfl, rfl⟩ := pair_unique hplay hplay'
      rw [hback] at hrest
      have hne : m ≠ n := by
        rintro rfl
        exact hen he
      have hm : m ∈ l := (List.mem_cons.mp hm).resolve_left hne
      rw [← ih hl hq hrest hm hnodup]
      split <;> simp [hne]

end Sift

end ChessEval
