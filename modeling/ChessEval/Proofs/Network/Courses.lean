import ChessEval.Network.Synthetic
import ChessEval.Proofs.Board.KingCaptures
import ChessEval.Proofs.Network.Tracking

/-! Moves made, taken back and asked about in any order: each query gives the sums of the current
position as computed from scratch. -/
namespace ChessEval

open Rules

variable {nets : Networks} {l : Line} {p q : Position} {ps : List Position} {d : Change} {u : Undo}
  {us : List Undo} {m : Move}

namespace Line

/-- Both tracks and the threats belong to the positions of a line, the latest first. -/
structure Valid (l : Line) (nets : Networks) (ps : List Position) : Prop where
  big : l.big.Valid nets.big.transformer ps
  small : l.small.Valid nets.small.transformer ps
  root_threats : ∀ p, ps.getLast? = some p → l.rootThreats = Threat.sorted p

theorem Valid.threats (h : l.Valid nets (p :: ps)) : l.threats = Threat.sorted p := by
  have htracks := h.big.tracks
  rw [Line.threats]
  generalize l.big.plies = plies at htracks
  cases htracks with
  | root => exact h.root_threats p rfl
  | ply _ _ _ hthreats => exact hthreats

theorem Valid.push (h : l.Valid nets (p :: ps)) (hq : q.Sound) (hf : Follows p d q) :
    (l.push d q).Valid nets (q :: p :: ps) where
  big := h.big.push hq hf rfl (by rw [h.threats])
  small := h.small.push hq hf rfl (by rw [h.threats])
  root_threats r hr := h.root_threats r (by rwa [List.getLast?_cons_cons] at hr)

theorem Valid.pop? (h : l.Valid nets (q :: p :: ps)) :
    ∃ l', l.pop? = some l' ∧ l'.Valid nets (p :: ps) := by
  obtain ⟨big, hb, hbig⟩ := h.big.pop?
  obtain ⟨small, hs, hsmall⟩ := h.small.pop?
  refine ⟨{ l with big := big, small := small }, ?_, hbig, hsmall, fun r hr => ?_⟩
  · simp [Line.pop?, hb, hs]
  · exact h.root_threats r (by rwa [List.getLast?_cons_cons])

theorem Valid.bigAccumulator? (h : l.Valid nets (p :: ps)) :
    ∃ a l', l.bigAccumulator? nets p = some (a, l') ∧ l'.Valid nets (p :: ps) ∧
      ∀ view, (a.half view).computed = true ∧
        nets.big.transformer.refresh? p view = some (a.half view).sums := by
  obtain ⟨k, hk, hvalid, hcomputed⟩ := h.big.update?
  refine ⟨k.current, { l with big := k }, ?_, ⟨hvalid, h.small, h.root_threats⟩, fun view => ?_⟩
  · rw [Line.bigAccumulator?, hk, Option.map_some]
  · exact ⟨hcomputed view, hvalid.current view (hcomputed view)⟩

theorem Valid.smallAccumulator? (h : l.Valid nets (p :: ps)) :
    ∃ a l', l.smallAccumulator? nets p = some (a, l') ∧ l'.Valid nets (p :: ps) ∧
      ∀ view, (a.half view).computed = true ∧
        nets.small.transformer.refresh? p view = some (a.half view).sums := by
  obtain ⟨k, hk, hvalid, hcomputed⟩ := h.small.update?
  refine ⟨k.current, { l with small := k }, ?_, ⟨h.big, hvalid, h.root_threats⟩, fun view => ?_⟩
  · rw [Line.smallAccumulator?, hk, Option.map_some]
  · exact ⟨hcomputed view, hvalid.current view (hcomputed view)⟩

theorem exists_reset? (hp : p.Sound) (nets : Networks) (l : Line) :
    ∃ l', l.reset? nets p = some l' ∧ l'.Valid nets [p] := by
  obtain ⟨big, hb, hbig⟩ := Track.exists_reset? hp nets.big.transformer l.big
  obtain ⟨small, hs, hsmall⟩ := Track.exists_reset? hp nets.small.transformer l.small
  refine ⟨⟨Threat.sorted p, big, small⟩, ?_, hbig, hsmall, fun r hr => ?_⟩
  · simp [reset?, hb, hs]
  · obtain rfl : p = r := Option.some.inj hr
    rfl

theorem exists_start? (hp : p.Sound) (nets : Networks) :
    ∃ l, start? nets p = some l ∧ l.Valid nets [p] :=
  exists_reset? hp nets ⟨[], ⟨.blank, [], [], .fresh _⟩, ⟨.blank, [], [], .fresh _⟩⟩

end Line

/-- A line of play under way: its accumulators, the board and the records of the moves made since
the last reset, the latest first. -/
structure Course where
  line : Line
  position : Position
  undos : List Undo

inductive Operation where
  | make (m : Move)
  | unmake
  | queryBig
  | querySmall
  | reset (p : Position)

namespace Course

variable {w w' : Course} {op : Operation}

/-- Legal moves are made, moves made are taken back, and resets go to well-formed positions. -/
def Allowed (w : Course) : Operation → Prop
  | .make m => ∃ l, w.position.legalMoves? = some l ∧ m ∈ l
  | .unmake => w.undos ≠ []
  | .queryBig => True
  | .querySmall => True
  | .reset p => p.WellFormed

def perform? (nets : Networks) (w : Course) : Operation → Option Course
  | .make m =>
    (w.line.play? w.position m).map fun (line, next, undo) => ⟨line, next, undo :: w.undos⟩
  | .unmake =>
    match w.undos with
    | [] => none
    | u :: us => (w.line.takeBack? w.position u).map fun (line, p) => ⟨line, p, us⟩
  | .queryBig => (w.line.bigAccumulator? nets w.position).map fun (_, line) => { w with line := line }
  | .querySmall =>
    (w.line.smallAccumulator? nets w.position).map fun (_, line) => { w with line := line }
  | .reset p => (w.line.reset? nets p).map fun line => ⟨line, p, []⟩

/-- The courses that operations lead to from a well-formed position. -/
inductive Reaches (nets : Networks) : Course → Prop
  | start {p : Position} {line : Line} : p.WellFormed → Line.start? nets p = some line →
    Reaches nets ⟨line, p, []⟩
  | step {w w' : Course} {op : Operation} : Reaches nets w → w.Allowed op →
    w.perform? nets op = some w' → Reaches nets w'

/-- The records lead back through well-formed positions. -/
inductive Recorded : List Position → List Undo → Prop
  | root {p : Position} : p.WellFormed → Recorded [p] []
  | move {p q : Position} {ps : List Position} {u : Undo} {us : List Undo} :
    Recorded (p :: ps) us → q.WellFormed → q.takeBack u = p → Recorded (q :: p :: ps) (u :: us)

theorem Recorded.wellFormed (h : Recorded (p :: ps) us) : p.WellFormed := by
  cases h <;> assumption

/-- The line and the records belong to the same positions, the current one first. -/
def Valid (w : Course) (nets : Networks) : Prop :=
  ∃ ps, Recorded (w.position :: ps) w.undos ∧ w.line.Valid nets (w.position :: ps)

theorem Valid.make (h : w.Valid nets) (hm : w.Allowed (.make m)) :
    ∃ w', w.perform? nets (.make m) = some w' ∧ w'.Valid nets := by
  obtain ⟨ps, hr, hl⟩ := h
  obtain ⟨l, hlegal, hm⟩ := hm
  have hp := hr.wellFormed
  obtain ⟨hmt, k, next, undo, hplayed⟩ := hp.exists_played hlegal hm
  have hn := hplayed.wellFormed hp.toSound hmt.permitted (hp.tame hmt.permitted) hmt.target
  have hf : Follows w.position undo.change next := ⟨hplayed.fits.exchangeable, hplayed.same⟩
  refine ⟨⟨w.line.push undo.change next, next, undo :: w.undos⟩, ?_, w.position :: ps,
    .move hr hn hplayed.takeBack, hl.push hn.toSound hf⟩
  simp [perform?, Line.play?, hplayed.play]

theorem Valid.unmake (h : w.Valid nets) (hu : w.Allowed .unmake) :
    ∃ w', w.perform? nets .unmake = some w' ∧ w'.Valid nets := by
  obtain ⟨ps, hr, hl⟩ := h
  rcases w with ⟨line, q, undos⟩
  cases hr with
  | root => exact (hu rfl).elim
  | @move p _ ps u us hr hq hback =>
    obtain ⟨line', hpop, hl'⟩ := hl.pop?
    refine ⟨⟨line', p, us⟩, ?_, ps, hr, hl'⟩
    simp [perform?, Line.takeBack?, hpop, hback]

/-- Each operation that is allowed works and keeps the course valid. -/
theorem Valid.perform? (h : w.Valid nets) (hop : w.Allowed op) :
    ∃ w', w.perform? nets op = some w' ∧ w'.Valid nets := by
  cases op with
  | make m => exact h.make hop
  | unmake => exact h.unmake hop
  | queryBig =>
    obtain ⟨ps, hr, hl⟩ := h
    obtain ⟨a, line, ha, hl', -⟩ := hl.bigAccumulator?
    exact ⟨{ w with line := line }, by simp [Course.perform?, ha], ps, hr, hl'⟩
  | querySmall =>
    obtain ⟨ps, hr, hl⟩ := h
    obtain ⟨a, line, ha, hl', -⟩ := hl.smallAccumulator?
    exact ⟨{ w with line := line }, by simp [Course.perform?, ha], ps, hr, hl'⟩
  | reset p =>
    obtain ⟨line, hline, hl⟩ := Line.exists_reset? (Position.WellFormed.toSound hop) nets w.line
    exact ⟨⟨line, p, []⟩, by simp [Course.perform?, hline], [], .root hop, hl⟩

/-- Every course that operations lead to is valid. -/
theorem Reaches.valid (h : Reaches nets w) : w.Valid nets := by
  induction h with
  | start hp hline =>
    obtain ⟨line, hline', hl⟩ := Line.exists_start? hp.toSound nets
    obtain rfl := Option.some.inj (hline.symm.trans hline')
    exact ⟨[], .root hp, hl⟩
  | step _ hop hw ih =>
    obtain ⟨w', hw', hvalid⟩ := ih.perform? hop
    rwa [Option.some.inj (hw.symm.trans hw')]

/-- Whatever was made, taken back, asked and reset before, operations work and queries give both
sides' sums of the current position, as computed from scratch. -/
theorem queries_give_refreshed_sums (nets : Networks) :
    (∀ p : Position, p.WellFormed → ∃ line, Line.start? nets p = some line) ∧
    ∀ w : Course, Reaches nets w →
      (∀ op, w.Allowed op → ∃ w', w.perform? nets op = some w') ∧
      (∃ a line, w.line.bigAccumulator? nets w.position = some (a, line) ∧
        ∀ view, (a.half view).computed = true ∧
          nets.big.transformer.refresh? w.position view = some (a.half view).sums) ∧
      ∃ a line, w.line.smallAccumulator? nets w.position = some (a, line) ∧
        ∀ view, (a.half view).computed = true ∧
          nets.small.transformer.refresh? w.position view = some (a.half view).sums := by
  refine ⟨fun p hp => ?_, fun w hw => ⟨fun op hop => ?_, ?_, ?_⟩⟩
  · obtain ⟨line, hline, -⟩ := Line.exists_start? hp.toSound nets
    exact ⟨line, hline⟩
  · obtain ⟨w', hw', -⟩ := hw.valid.perform? hop
    exact ⟨w', hw'⟩
  · obtain ⟨ps, -, hl⟩ := hw.valid
    obtain ⟨a, line, ha, -, hsums⟩ := hl.bigAccumulator?
    exact ⟨a, line, ha, hsums⟩
  · obtain ⟨ps, -, hl⟩ := hw.valid
    obtain ⟨a, line, ha, -, hsums⟩ := hl.smallAccumulator?
    exact ⟨a, line, ha, hsums⟩

theorem queries_after_first_move : ∃ w : Course, Reaches (.synthetic 1) w ∧ w.undos ≠ [] ∧
    ∃ a line, w.line.bigAccumulator? (.synthetic 1) w.position = some (a, line) ∧
      ∀ view, (a.half view).computed = true ∧
        (Networks.synthetic 1).big.transformer.refresh? w.position view =
          some (a.half view).sums := by
  have h := queries_give_refreshed_sums (.synthetic 1)
  obtain ⟨line, hline⟩ := h.1 .initial Position.wellFormed_initial
  have hstart := Reaches.start Position.wellFormed_initial hline
  have hlegal : (Position.initial.legalMoves?.any (⟨12, 28, .doublePush⟩ ∈ ·)) = true := by
    decide +kernel
  obtain ⟨l, hl, hm⟩ := (Option.any_eq_true _ _).mp hlegal
  have hop : (⟨line, .initial, []⟩ : Course).Allowed (.make ⟨12, 28, .doublePush⟩) :=
    ⟨l, hl, of_decide_eq_true hm⟩
  obtain ⟨w, hw⟩ := (h.2 _ hstart).1 _ hop
  have hreaches := Reaches.step hstart hop hw
  refine ⟨w, hreaches, ?_, (h.2 w hreaches).2.1⟩
  obtain ⟨x, -, rfl⟩ := Option.map_eq_some_iff.mp hw
  simp

end Course

end ChessEval
