import FrontEnd.Proofs.Operation
import FrontEnd.Proofs.Quiet
/-!
# States on the way

A run passes through states before it ends: those before and after each step, those inside the goals
and scopes that it enters, also if it fails there later. These are all that a run depends on: it stays
the same if goals are read in any other way elsewhere. No state on the way nests deeper than the
options allow, and every piece of a program, read in any session, gives back what it took.
-/
namespace FrontEnd

variable {α β : Type} {options : ParseOptions}

namespace Reader

/-- What is done around a reader that starts in the first state starts the reader in the second. -/
def Enters (around : Reader ParseState → Reader ParseState) (s u : ParseState) : Prop :=
  ∃ t, around get s = .ok u t

theorem enters_between (before after : ParseState → ParseState) {s u : ParseState} :
    Enters (between before after) s u ↔ u = before s :=
  ⟨fun ⟨_, h⟩ => by cases h; rfl, fun h => ⟨after u, by rw [h]; rfl⟩⟩

theorem enters_nested {limit : Nat} {s u : ParseState} :
    Enters (nested limit) s u ↔ s.depth < limit ∧ u = { s with depth := s.depth + 1 } := by
  unfold Enters nested
  split
  · exact (enters_between _ fun s => { s with depth := s.depth - 1 }).trans
      (and_iff_right ‹_›).symm
  · exact ⟨fun ⟨_, h⟩ => (nomatch h), fun h => absurd h.1 ‹_›⟩

theorem enters_inScope {s u : ParseState} :
    Enters inScope s u ↔ u = { s with toNames := s.push } := enters_between _ _

theorem enters_withStructLiterals {allowed : Bool} {s u : ParseState} :
    Enters (withStructLiterals allowed) s u ↔ u = { s with structLiterals := allowed } :=
  enters_between _ fun s' => { s' with structLiterals := s.structLiterals }

end Reader

/-- The run of a phrase that starts in the first state passes through the second, if goals in it
may be entered in each other as often as `fuel` says. -/
inductive Phrase.Visits (options : ParseOptions) :
    Nat → {α : Type} → Phrase α → ParseState → ParseState → Prop
  | start {fuel p s} : Visits options fuel p s s
  | stop {fuel p s} :
    Visits options fuel p s ((p.run options (Goal.read options fuel)).after s)
  | act {fuel a next s t} (h : Visits options fuel (next (a.run options s).1) (a.run options s).2 t) :
    Visits options fuel (.act a next) s t
  | inGoal {fuel g next s u t} (hu : Reader.Enters (Reader.nested options.maxDepth) s u)
    (h : Visits options fuel (Grammar.rule g) u t) : Visits options (fuel + 1) (.nested g next) s t
  | afterGoal {fuel g next s s' t a} (hg : Goal.read options fuel g s = .ok a s')
    (h : Visits options fuel (next a) s' t) : Visits options fuel (.nested g next) s t
  | inScope {fuel body next s u t} (hu : Reader.Enters Reader.inScope s u)
    (h : Visits options fuel body u t) : Visits options fuel (.enclosed body next) s t
  | afterScope {fuel body next s s' t b}
    (hb : Reader.inScope (body.run options (Goal.read options fuel)) s = .ok b s')
    (h : Visits options fuel (next b) s' t) : Visits options fuel (.enclosed body next) s t
  | inLiterals {fuel allowed body next s u t}
    (hu : Reader.Enters (Reader.withStructLiterals allowed) s u) (h : Visits options fuel body u t) :
    Visits options fuel (.structLiterals allowed body next) s t
  | afterLiterals {fuel allowed body next s s' t b}
    (hb : Reader.withStructLiterals allowed (body.run options (Goal.read options fuel)) s = .ok b s')
    (h : Visits options fuel (next b) s' t) :
    Visits options fuel (.structLiterals allowed body next) s t
  | inRound {fuel round next s t} (h : Visits options fuel round s t) :
    Visits options fuel (.many round next) s t
  | nextRound {fuel round next s s' t b}
    (hr : round.run options (Goal.read options fuel) s = .ok (some b) s')
    (h : Visits options fuel (.many round .done) s' t) : Visits options fuel (.many round next) s t
  | afterRounds {fuel round next s s' t bs}
    (hr : Reader.many (round.run options (Goal.read options fuel)) s = .ok bs s')
    (h : Visits options fuel (next bs) s' t) : Visits options fuel (.many round next) s t

namespace Phrase

/-- What holds between the ends of runs, and from before an entry to after it, holds on the way. -/
theorem Visits.related {R : ParseState → ParseState → Prop} (hR : Invariant options R)
    (hgoal : ∀ s, s.depth < options.maxDepth → R s { s with depth := s.depth + 1 })
    (hscope : ∀ s, R s { s with toNames := s.push })
    (hliterals : ∀ allowed s, R s { s with structLiterals := allowed })
    {fuel : Nat} {p : Phrase α} {s t : ParseState} (h : Visits options fuel p s t) : R s t := by
  have trans {s t u : ParseState} := hR.trans s t u
  have run {β : Type} (fuel : Nat) (p : Phrase β) := hR.run (hR.goal fuel) p
  induction h with
  | start => exact hR.refl _
  | stop => exact run _ _ _
  | act h ih => exact trans (hR.act _ _) ih
  | inGoal hu h ih =>
    obtain ⟨hd, rfl⟩ := Reader.enters_nested.1 hu
    exact trans (hgoal _ hd) ih
  | afterGoal hg h ih => exact trans ((hR.goal _ _).of_ok hg) ih
  | inScope hu h ih =>
    obtain rfl := Reader.enters_inScope.1 hu
    exact trans (hscope _) ih
  | @afterScope _ _ fuel body next s s' t b hb h ih =>
    exact trans ((run fuel (Phrase.inScope body)).of_ok (Reader.bind_of_ok hb)) ih
  | inLiterals hu h ih =>
    obtain rfl := Reader.enters_withStructLiterals.1 hu
    exact trans (hliterals _ _) ih
  | @afterLiterals _ _ fuel allowed body next s s' t b hb h ih =>
    exact trans ((run fuel (Phrase.withStructLiterals allowed body)).of_ok (Reader.bind_of_ok hb)) ih
  | inRound h ih => exact ih
  | nextRound hr h ih => exact trans ((run _ _).of_ok hr) ih
  | @afterRounds _ _ fuel round next s s' t bs hr h ih =>
    exact trans ((run fuel (Phrase.repeated round)).of_ok (Reader.bind_of_ok hr)) ih

/-- If a run starts no deeper than is allowed, it nowhere nests deeper. -/
theorem Visits.depth_le {fuel : Nat} {p : Phrase α} {s t : ParseState}
    (h : Visits options fuel p s t) (hs : s.depth ≤ options.maxDepth) :
    t.depth ≤ options.maxDepth := by
  have hinvariant : Invariant options fun s t =>
      s.depth ≤ options.maxDepth → t.depth ≤ options.maxDepth :=
    { refl := fun _ hs => hs
      trans := fun _ _ _ hst htu hs => htu (hst hs)
      act := fun a s hs => (ParseState.Kept.act options a s).depth_eq ▸ hs
      nested := fun hs ht _ => Nat.le_trans (Nat.sub_le _ _) (ht hs)
      inScope := fun ht => ht
      structLiterals := fun _ ht => ht }
  exact h.related hinvariant (fun _ hs _ => hs) (fun _ hs => hs) (fun _ _ hs => hs) hs

end Phrase

namespace Reader

variable {r r' : Reader α} {s : ParseState}

theorem nested_congr {limit : Nat} (h : ∀ u, Enters (nested limit) s u → r u = r' u) :
    nested limit r s = nested limit r' s := by
  unfold nested
  split
  · simp only [between, h _ (enters_nested.2 ⟨‹_›, rfl⟩)]
  · rfl

theorem inScope_congr (h : ∀ u, Enters inScope s u → r u = r' u) : inScope r s = inScope r' s := by
  simp only [inScope, between, h _ (enters_inScope.2 rfl)]

theorem withStructLiterals_congr {allowed : Bool}
    (h : ∀ u, Enters (withStructLiterals allowed) s u → r u = r' u) :
    withStructLiterals allowed r s = withStructLiterals allowed r' s := by
  simp only [withStructLiterals, between, h _ (enters_withStructLiterals.2 rfl)]

end Reader

/-- Reads a goal, but where the state after its entry does not satisfy `P`, by another reader. -/
def Goal.readWhere (options : ParseOptions) (P : ParseState → Prop) [DecidablePred P]
    (other : (g : Goal) → Reader g.Tree) : (fuel : Nat) → (g : Goal) → Reader g.Tree
  | 0, _ => Reader.tooDeep options.maxDepth
  | fuel + 1, g => Reader.nested options.maxDepth fun s =>
    if P s then (Grammar.rule g).run options (Goal.readWhere options P other fuel) s else other g s

section ReadWhere

variable {P : ParseState → Prop} {other : (g : Goal) → Reader g.Tree} {fuel : Nat}

namespace Phrase

theorem collect_eq_of_visits {below : (g : Goal) → Reader g.Tree} {round : Phrase (Option β)}
    (hround : ∀ {s}, (∀ u, round.Visits options fuel s u → P u) →
      round.run options below s = round.run options (Goal.read options fuel) s)
    (n : Nat) {next : List β → Phrase α} {s : ParseState}
    (h : ∀ u, (many round next).Visits options fuel s u → P u) :
    Reader.collect (round.run options below) n s =
      Reader.collect (round.run options (Goal.read options fuel)) n s := by
  induction n generalizing α s with
  | zero => rfl
  | succ n ih =>
    simp only [Reader.collect, hround fun u hu => h u (.inRound hu)]
    split
    · split
      · -- the rounds to come are visited as rounds with nothing after them
        exact Reader.bind_congr (ih fun u hu => h u (.nextRound ‹_› hu)) fun _ _ _ => rfl
      · rfl
    · rfl
    · rfl

/-- If goals are read alike where the states visited satisfy `P`, phrases are. -/
theorem run_eq_of_visits {below : (g : Goal) → Reader g.Tree}
    (hb : ∀ {β : Type} g (next : g.Tree → Phrase β) s,
      (∀ u, (nested g next).Visits options fuel s u → P u) → below g s = g.read options fuel s)
    (p : Phrase α) {s : ParseState} (h : ∀ u, p.Visits options fuel s u → P u) :
    p.run options below s = p.run options (Goal.read options fuel) s := by
  induction p generalizing s with
  | done value => rfl
  | fail expected => rfl
  | act a next ih => exact ih _ fun u hu => h u (.act hu)
  | nested g next ih =>
    exact Reader.bind_congr (hb g next s h) fun a t ht => ih a fun u hu => h u (.afterGoal ht hu)
  | enclosed body next ihb ih =>
    exact Reader.bind_congr (Reader.inScope_congr fun t ht => ihb fun u hu => h u (.inScope ht hu))
      fun b t ht => ih b fun u hu => h u (.afterScope ht hu)
  | structLiterals allowed body next ihb ih =>
    exact Reader.bind_congr
      (Reader.withStructLiterals_congr fun t ht => ihb fun u hu => h u (.inLiterals ht hu))
      fun b t ht => ih b fun u hu => h u (.afterLiterals ht hu)
  | many round next ihr ih =>
    exact Reader.bind_congr (collect_eq_of_visits ihr _ h)
      fun bs t ht => ih bs fun u hu => h u (.afterRounds ht hu)

variable [DecidablePred P]

/-- What is done in states that a run does not visit is nothing to the run. -/
theorem run_readWhere {p : Phrase α} {s : ParseState}
    (h : ∀ u, p.Visits options fuel s u → P u) :
    p.run options (Goal.readWhere options P other fuel) s =
      p.run options (Goal.read options fuel) s := by
  induction fuel generalizing α p s with
  | zero => exact run_eq_of_visits (fun _ _ _ _ => rfl) p h
  | succ fuel ih =>
    refine run_eq_of_visits (fun g next s h => Reader.nested_congr fun t ht => ?_) p h
    have hP : P t := h t (.inGoal ht .start)
    rw [if_pos hP]
    exact ih fun u hu => h u (.inGoal ht hu)

end Phrase

end ReadWhere

namespace Operation

theorem quiet_phrase {op : Operation} (h : ¬op.Declares) : op.phrase.Quiet := by
  cases op with
  | expr above => exact Grammar.quiet_expr above
  | statementExpr => exact Grammar.quiet_statementExpr
  | ty => exact Grammar.quiet_ty
  | pattern => exact Grammar.quiet_pattern
  | block => exact Grammar.quiet_block
  | constBlock => exact Grammar.quiet_constBlock
  | conditional => exact Grammar.quiet_conditional
  | whileLoop => exact Grammar.quiet_whileLoop
  | loop => exact Grammar.quiet_loop
  | matching => exact Grammar.quiet_matching
  | emptyStatement => exact Phrase.Quiet.expect.bind fun _ => .pure
  | item => exact Grammar.quiet_item
  | function allowSignature => exact Grammar.quiet_function allowSignature
  | constant inTrait => exact Grammar.quiet_constant inTrait
  | path => exact Grammar.quiet_path
  | term => exact Grammar.quiet_term
  | operators above left => exact Grammar.quiet_operators above left
  | _ => exact absurd trivial h

end Operation

namespace Session

theorem Reachable.depth_le {s : Session} (h : s.Reachable) : s.state.depth ≤ s.options.maxDepth := by
  induction h with
  | start tokens file options => exact Nat.zero_le _
  | @read s α p h ih =>
    rw [state_read, options_read, (p.read_kept s.options s.state).depth_eq]
    exact ih
  | @enter s h ih =>
    unfold Session.enter
    split
    · exact Nat.succ_le_of_lt ‹_›
    · exact ih
  | leave h ih => exact Nat.le_trans (Nat.sub_le _ _) ih
  | _ => assumption

/-- Whatever comes of reading a piece of a program, in whatever session: the levels of nesting, the
open scopes and the leave to write struct literals are those of before, on the way nothing nested
deeper than allowed, so that it does not matter what would be done there, redefinitions noted before
still stand before all others, and no scope around the innermost has changed. The innermost one has
changed only if the piece is one that declares. -/
theorem Reachable.read_restores {s : Session} (hs : s.Reachable) (op : Operation) :
    let t := (s.read op.phrase).2.state
    t.depth = s.state.depth ∧
    t.structLiterals = s.state.structLiterals ∧
    t.scopes.depth = s.state.scopes.depth ∧
    (∀ u, Phrase.Visits s.options s.options.maxDepth op.phrase s.state u →
      u.depth ≤ s.options.maxDepth) ∧
    (∀ other, op.phrase.run s.options (Goal.readWhere s.options (·.depth ≤ s.options.maxDepth) other
      s.options.maxDepth) s.state = op.phrase.read s.options s.state) ∧
    s.state.redefinitions <+: t.redefinitions ∧
    (∀ id < s.state.scopes.current, t.scopes.scopes[id]? = s.state.scopes.scopes[id]?) ∧
    (¬op.Declares → t.scopes = s.state.scopes) := by
  intro t
  have ht : t = (op.phrase.read s.options).after s.state := state_read s op.phrase
  have hk : s.state.Kept t := ht ▸ op.phrase.read_kept s.options s.state
  have hdepth (u : ParseState) (hu : op.phrase.Visits s.options s.options.maxDepth s.state u) :
      u.depth ≤ s.options.maxDepth := hu.depth_le hs.depth_le
  exact ⟨hk.depth_eq, hk.structLiterals_eq, hk.scopes.depth_eq, hdepth,
    fun other => Phrase.run_readWhere hdepth, hk.redefinitions, hk.scopes.scope_eq,
    fun h => ht ▸ (Operation.quiet_phrase h).read s.state⟩

/-- Reading a block that is not finished, one level deep, inside a scope of its own and where no
struct literals are allowed. -/
theorem Reachable.read_restores_unfinished :
    let place : Span := ⟨.origin "t", .origin "t"⟩
    let tokens : List Token := [⟨.openCurly, "\x7b", place⟩, ⟨.kwLet, "let", place⟩]
    let s := ((Session.start tokens "t" ⟨9, true⟩).enter.2.pushScope).allowStructLiterals false
    s.Reachable ∧
    (let t := (s.read Operation.block.phrase).2.state
    t.depth = s.state.depth ∧
    t.structLiterals = s.state.structLiterals ∧
    t.scopes.depth = s.state.scopes.depth ∧
    (∀ u, Phrase.Visits s.options s.options.maxDepth Operation.block.phrase s.state u →
      u.depth ≤ s.options.maxDepth) ∧
    (∀ other, Operation.block.phrase.run s.options (Goal.readWhere s.options
      (·.depth ≤ s.options.maxDepth) other s.options.maxDepth) s.state =
        Operation.block.phrase.read s.options s.state) ∧
    s.state.redefinitions <+: t.redefinitions ∧
    (∀ id < s.state.scopes.current, t.scopes.scopes[id]? = s.state.scopes.scopes[id]?) ∧
    (¬Operation.block.Declares → t.scopes = s.state.scopes)) := by
  intro place tokens s
  have hs : s.Reachable := .allowStructLiterals false (.pushScope (.enter (.start tokens "t" _)))
  exact ⟨hs, hs.read_restores .block⟩

end Session

end FrontEnd
