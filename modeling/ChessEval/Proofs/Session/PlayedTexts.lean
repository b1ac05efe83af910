import ChessEval.Proofs.Board.KingCaptures
import ChessEval.Session.Setup

/-! Positions told by a command: when the moves played from its start take no king. -/
namespace ChessEval

open Square Rules

variable {p q r : Position} {undo : Undo} {m n : Move} {t : String} {ts words : List String}

/-- The texts, played from the first position, play the move from the second to the third. -/
inductive Plays : List String → Position → Position → Move → Position → Prop
  | first {t ts p m next undo} : p.readLegalMove? t = some (.ok m) →
    p.play? m = some (next, undo) → Plays (t :: ts) p p m next
  | later {t ts p m next undo q n r} : p.readLegalMove? t = some (.ok m) →
    p.play? m = some (next, undo) → Plays ts next q n r → Plays (t :: ts) p q n r

/-- If the first text is an en passant capture, it arrives on an empty square. -/
def ArrivesFree (p : Position) (ts : List String) : Prop :=
  ∀ t ts' m, ts = t :: ts' → p.readLegalMove? t = some (.ok m) → m.kind = .enPassant →
    p.pieceAt? m.target = none

/-- The text names a move where listing the moves fails, or the legal capture en passant of a king. -/
inductive Struck (p : Position) (t : String) : Prop
  | unlisted {m : Move} : p.readMove t = .ok m → p.legalMoves? = none → Struck p t
  | king {m : Move} {c : Color} : p.readLegalMove? t = some (.ok m) → m.kind = .enPassant →
    p.pieceAt? (beside m) = some (c, .king) → Struck p t

/-- The command is carried out or refused, and no move it plays takes a king. -/
def KingsStand (words : List String) : Prop :=
  (∃ r, Position.ofWords? words = some r) ∧ ∀ p ts q m r,
    Position.startOf words = .ok (p, "moves" :: ts) → Plays ts p q m r →
      ∀ c, q.king? c ≠ none ∧ r.king? c ≠ none

namespace Position

theorem struck_of_readLegalMove? (h : p.readLegalMove? t = none) : Struck p t := by
  rw [readLegalMove?] at h
  split at h
  · cases h
  · next hm => exact .unlisted hm (Option.map_eq_none_iff.mp h)

theorem mem_of_readLegalMove? (h : p.readLegalMove? t = some (.ok m)) :
    ∃ l, p.legalMoves? = some l ∧ m ∈ l := by
  rw [readLegalMove?] at h
  split at h
  · cases h
  · obtain ⟨l, hl, h⟩ := Option.map_eq_some_iff.mp h
    refine ⟨l, hl, ?_⟩
    split at h
    · next hf =>
      obtain rfl := Except.ok.inj h
      exact List.mem_of_find?_eq_some hf
    · cases h

theorem WellFormed.arrivesFree (hp : p.WellFormed) (ts : List String) : ArrivesFree p ts := by
  intro t ts' m _ hm he
  obtain ⟨l, hl, hm⟩ := mem_of_readLegalMove? hm
  exact (hp.tame (hp.toSound.trial_of_mem hl hm).permitted he).1

/-- Where the en passant square is no fault, no text strikes. -/
theorem Sound.not_struck (hp : p.Sound) (hf : ¬ EnPassantFault p) (t : String) : ¬ Struck p t := by
  rintro (⟨-, hnone⟩ | ⟨hm, he, hb⟩)
  · obtain ⟨l, hl, -⟩ := hp.legalMoves?_keepsKings_iff.mpr hf
    rw [hnone] at hl
    cases hl
  · next m c =>
    obtain ⟨l, hl, hml⟩ := mem_of_readLegalMove? hm
    have hmt := hp.trial_of_mem hl hml
    rcases c.eq_or_eq_opponent p.turn with rfl | rfl
    · exact hf (.own_king hmt he hb)
    · exact hf (.their_king hmt he hb ((hp.mem_legalMoves?_iff_spares hl hmt he).mp hml))

theorem WellFormed.not_struck (hp : p.WellFormed) (t : String) : ¬ Struck p t :=
  hp.toSound.not_struck hp.not_enPassantFault t

/-- A legal move that does not strike leads to a well-formed position. -/
theorem Sound.exists_wellFormed (hp : p.Sound) (hs : ¬ Struck p t) (ha : ArrivesFree p (t :: ts))
    (hm : p.readLegalMove? t = some (.ok m)) :
    ∃ next undo, p.play? m = some (next, undo) ∧ next.WellFormed := by
  obtain ⟨l, hl, hml⟩ := mem_of_readLegalMove? hm
  have hmt := hp.trial_of_mem hl hml
  have ht : Tame p m := fun he => ⟨ha t ts m rfl hm he, fun c hb => hs (.king hm he hb)⟩
  obtain ⟨k, next, undo, h⟩ := hmt.permitted.exists_played hp.toConsistent ht
  exact ⟨next, undo, h.play, h.wellFormed hp hmt.permitted ht hmt.target⟩

theorem exists_playTexts? (hp : p.Sound) (hs : ∀ t ts', ts = t :: ts' → ¬ Struck p t)
    (ha : ArrivesFree p ts) : ∃ r, playTexts? ts p = some r := by
  -- only the first move needs the hypotheses: it leads to a well-formed position
  induction ts generalizing p with
  | nil => exact ⟨_, rfl⟩
  | cons t ts ih =>
    rw [playTexts?]
    split
    · next h => exact (hs t ts rfl (struck_of_readLegalMove? h)).elim
    · exact ⟨_, rfl⟩
    · next m hm =>
      obtain ⟨next, undo, hplay, hw⟩ := hp.exists_wellFormed (hs t ts rfl) ha hm
      rw [hplay]
      exact ih hw.toSound (fun t _ _ => hw.not_struck t) (hw.arrivesFree ts)

theorem Plays.keepsKings (h : Plays ts p q n r) (hp : p.Sound)
    (hs : ∀ t ts', ts = t :: ts' → ¬ Struck p t) (ha : ArrivesFree p ts) (c : Color) :
    q.king? c ≠ none ∧ r.king? c ≠ none := by
  have hking : ∀ {p : Position}, p.Sound → p.king? c ≠ none := fun hp => by
    obtain ⟨s, hs, -⟩ := hp.exists_king c
    simp [hs]
  induction h with
  | first hm hplay =>
    obtain ⟨next, undo, hplay', hw⟩ := hp.exists_wellFormed (hs _ _ rfl) ha hm
    obtain ⟨rfl, -⟩ := pair_unique hplay hplay'
    exact ⟨hking hp, hking hw.toSound⟩
  | later hm hplay _ ih =>
    obtain ⟨next, undo, hplay', hw⟩ := hp.exists_wellFormed (hs _ _ rfl) ha hm
    obtain ⟨rfl, -⟩ := pair_unique hplay hplay'
    exact ih hw.toSound (fun t _ _ => hw.not_struck t) (hw.arrivesFree _)

theorem ofWords?_of_startOf (h : startOf words = .ok (p, "moves" :: ts)) :
    ofWords? words = playTexts? ts p := by
  simp only [ofWords?, h]

/-- A command starts from a sound position. -/
theorem sound_of_startOf (h : startOf words = .ok (p, ts)) : p.Sound := by
  unfold startOf at h
  split at h
  · obtain ⟨rfl, -⟩ := Prod.mk.inj (Except.ok.inj h)
    exact sound_initial
  · split at h
    · cases h
    · split at h
      · next hp =>
        obtain ⟨rfl, -⟩ := Prod.mk.inj (Except.ok.inj h)
        exact sound_of_ofFen hp
      · cases h
  · cases h

theorem Struck.not_kingsStand (h : Struck p t) (hp : p.Sound)
    (hstart : startOf words = .ok (p, "moves" :: t :: ts)) : ¬ KingsStand words := by
  rintro ⟨⟨r, hr⟩, hkings⟩
  rw [ofWords?_of_startOf hstart, playTexts?] at hr
  cases h with
  | unlisted hm hnone => simp [readLegalMove?, hm, hnone] at hr
  | king hm he hb =>
    obtain ⟨l, hl, hml⟩ := mem_of_readLegalMove? hm
    obtain ⟨next, undo, hplay, hnone⟩ := hp.exists_play_of_trial (hp.trial_of_mem hl hml)
    exact (hkings _ _ _ _ _ hstart (.first hm hplay) _).2 ((hnone _).mpr ⟨he, hb⟩)

/-- From a FEN listing the moves works and spares both kings exactly if the en passant field is no
fault, and then no text strikes. A command, unless its first move captures en passant onto a piece,
takes no king and is answered exactly if its first text does not strike. Of a command whose first
move does so the last part says nothing: the captor stands on a piece that stays in the sets of its
color, and a later text may find no answer although the first does not strike, as in
`arrival_on_piece_unanswered`. -/
theorem commands_keep_kings {text : String} (h : ofFen text = .ok p) (words : List String) :
    ((∃ l, p.legalMoves? = some l ∧ KeepsKings p l) ↔ ¬ EnPassantFault p) ∧
    (¬ EnPassantFault p → ∀ t, ¬ Struck p t) ∧
    ((∀ q ts, startOf words = .ok (q, "moves" :: ts) → ArrivesFree q ts) →
      (KingsStand words ↔
        ∀ q t ts, startOf words = .ok (q, "moves" :: t :: ts) → ¬ Struck q t)) := by
  have hp := sound_of_ofFen h
  refine ⟨hp.legalMoves?_keepsKings_iff, hp.not_struck, fun ha => ⟨?_, fun hs => ⟨?_, ?_⟩⟩⟩
  · intro hkings q t ts hstart hstruck
    exact Struck.not_kingsStand hstruck (sound_of_startOf hstart) hstart hkings
  · rw [ofWords?]
    split
    · exact ⟨_, rfl⟩
    · next q ts hstart =>
      exact exists_playTexts? (sound_of_startOf hstart)
        (fun t ts' h => hs q t ts' (h ▸ hstart)) (ha q ts hstart)
    · exact ⟨_, rfl⟩
  · intro q ts q' m r hstart hplays
    exact Plays.keepsKings hplays (sound_of_startOf hstart)
      (fun t ts' h => hs q t ts' (h ▸ hstart)) (ha q ts hstart)

theorem commands_keep_kings_initial :
    ∃ p, ofFen "8/8/8/3KP3/8/8/8/7k w - - 0 1" = .ok p ∧
      ((∃ l, p.legalMoves? = some l ∧ KeepsKings p l) ↔ ¬ EnPassantFault p) ∧
      KingsStand ["position", "startpos", "moves", "e2e4", "d7d5"] := by
  obtain ⟨p, hp, -⟩ := exists_of_ofFen "8/8/8/3KP3/8/8/8/7k w - - 0 1"
    (fun _ => true) (by decide +kernel)
  obtain ⟨hlist, -, hstand⟩ :=
    commands_keep_kings hp ["position", "startpos", "moves", "e2e4", "d7d5"]
  refine ⟨p, hp, hlist, (hstand fun q ts h => ?_).mpr fun q t ts h => ?_⟩
  · obtain ⟨rfl, -⟩ := Prod.mk.inj (Except.ok.inj h)
    exact wellFormed_initial.arrivesFree ts
  · obtain ⟨rfl, -⟩ := Prod.mk.inj (Except.ok.inj h)
    exact wellFormed_initial.not_struck t

/-- A pawn captures en passant onto a rook, and no text strikes at the start. Once the pawn has
moved on, Black's rook is tried from a square where nothing stands, and the moves cannot be
listed. -/
theorem arrival_on_piece_unanswered : ∃ words p ts,
    words = ["position", "fen", "7k/8/3r4/3pP3/8/8/8/K7", "w", "-", "d6", "0", "1", "moves",
      "e5d6", "h8g7", "d6d7", "g7h7"] ∧
      startOf words = .ok (p, "moves" :: ts) ∧ ¬ EnPassantFault p ∧ (∀ t, ¬ Struck p t) ∧
      ¬ ArrivesFree p ts ∧ ofWords? words = none := by
  obtain ⟨p, hp, h⟩ := exists_of_ofFen "7k/8/3r4/3pP3/8/8/8/K7 w - d6 0 1"
    (fun p => p.legalMoves?.any (KeepsKings p ·) &&
      p.readLegalMove? "e5d6" == some (.ok ⟨36, 43, .enPassant⟩) && (p.pieceAt? 43).isSome &&
      (playTexts? ["e5d6", "h8g7", "d6d7", "g7h7"] p).isNone) (by decide +kernel)
  simp only [Bool.and_eq_true, beq_iff_eq, Option.isNone_iff_eq_none] at h
  obtain ⟨⟨⟨hlist, hread⟩, hpiece⟩, hnone⟩ := h
  have hsound := sound_of_ofFen hp
  have hfault : ¬ EnPassantFault p := by
    obtain ⟨l, hl, hkeeps⟩ := (Option.any_eq_true _ _).mp hlist
    exact hsound.legalMoves?_keepsKings_iff.mp ⟨l, hl, of_decide_eq_true hkeeps⟩
  have hstart : startOf ["position", "fen", "7k/8/3r4/3pP3/8/8/8/K7", "w", "-", "d6", "0", "1",
      "moves", "e5d6", "h8g7", "d6d7", "g7h7"] =
      .ok (p, ["moves", "e5d6", "h8g7", "d6d7", "g7h7"]) := by
    have htext : " ".intercalate ["7k/8/3r4/3pP3/8/8/8/K7", "w", "-", "d6", "0", "1"] =
        "7k/8/3r4/3pP3/8/8/8/K7 w - d6 0 1" := by decide
    simp [startOf, htext, hp]
  refine ⟨_, p, _, rfl, hstart, hfault, hsound.not_struck hfault, fun hfree => ?_, ?_⟩
  · have hempty := hfree _ _ _ rfl hread rfl
    rw [hempty] at hpiece
    cases hpiece
  · rw [ofWords?_of_startOf hstart, hnone]

/-- An en passant field in front of the own king makes listing the moves fail, one in front of the
opponent's king lists its capture. -/
theorem enPassant_field_takes_kings :
    (¬ ∀ text p, ofFen text = .ok p → ∃ l, p.legalMoves? = some l) ∧
      ¬ ∀ text p l, ofFen text = .ok p → p.legalMoves? = some l → KeepsKings p l := by
  constructor
  · intro h
    obtain ⟨p, hp, hn⟩ := exists_of_ofFen "8/8/8/3KP3/8/8/8/7k w - d6 0 1"
      (fun p => p.legalMoves?.isNone) (by decide +kernel)
    obtain ⟨l, hl⟩ := h _ p hp
    rw [hl] at hn
    cases hn
  · intro h
    obtain ⟨p, hp, hn⟩ := exists_of_ofFen "8/8/8/3kP3/8/8/8/7K w - d6 0 1"
      (fun p => p.legalMoves?.any (¬ KeepsKings p ·)) (by decide +kernel)
    obtain ⟨l, hl, hn⟩ := (Option.any_eq_true _ _).mp hn
    exact of_decide_eq_true hn (h _ p l hp hl)

end Position

end ChessEval
