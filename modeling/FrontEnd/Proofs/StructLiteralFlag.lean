import FrontEnd.Proofs.ExposedStructs
/-!
# With and without struct literals

Two runs of an expression that differ only in whether struct literals are allowed go the same way up
to a path with a brace after it. There they part for good: the one reads a struct literal, and
whatever comes after, the struct literal is exposed in its tree. The other ends the path, and as no
operator begins with a brace, the whole expression ends there too. All other phrases are blind to the
difference.
-/
namespace FrontEnd

variable {α β : Type} {options : ParseOptions}

def ParseState.allowing (s : ParseState) (allowed : Bool) : ParseState :=
  { s with structLiterals := allowed }

namespace Reader

/-- From a state a run goes the same way whether struct literals are allowed or not. -/
inductive Agrees (r : Reader α) (s : ParseState) : Prop
  | ok {a : α} {t : ParseState} (h : ∀ allowed, r (s.allowing allowed) = .ok a (t.allowing allowed))
  | error {e : SyntaxError} {t : ParseState}
    (h : ∀ allowed, r (s.allowing allowed) = .error e (t.allowing allowed))

/-- From a state a run with struct literals can only yield what has a property, and one without can
only stop before a brace. -/
structure Parts (E : α → Prop) (r : Reader α) (s : ParseState) : Prop where
  allowed {a : α} {t : ParseState} (h : r (s.allowing true) = .ok a t) : E a
  forbidden {a : α} {t : ParseState} (h : r (s.allowing false) = .ok a t) :
    t.cursor.kind = .openCurly

def Blind (r : Reader α) : Prop := ∀ s, r.Agrees s

/-- A run of which the two ways agree or part, from every state. -/
def Splits (E : α → Prop) (r : Reader α) : Prop := ∀ s, r.Agrees s ∨ r.Parts E s

variable {r r' : Reader α} {f : α → Reader β} {s s' : ParseState} {E : α → Prop} {F : β → Prop}

theorem Agrees.congr (hr : r'.Agrees s')
    (h : ∀ allowed, r (s.allowing allowed) = r' (s'.allowing allowed)) : r.Agrees s := by
  cases hr with
  | ok hr => exact .ok fun allowed => (h allowed).trans (hr allowed)
  | error hr => exact .error fun allowed => (h allowed).trans (hr allowed)

theorem Parts.congr (hr : r'.Parts E s')
    (h : ∀ allowed, r (s.allowing allowed) = r' (s'.allowing allowed)) : r.Parts E s :=
  ⟨fun hok => hr.allowed (h true ▸ hok), fun hok => hr.forbidden (h false ▸ hok)⟩

theorem Blind.bind (hr : r.Blind) (hf : ∀ a, (f a).Blind) : (r >>= f).Blind := by
  intro s
  cases hr s with
  | error h => exact .error fun allowed => bind_of_error (h allowed)
  | ok h => exact (hf _ _).congr fun allowed => bind_of_ok (h allowed)

theorem Blind.splits (hr : r.Blind) : r.Splits E := fun s => .inl (hr s)

/-- Where the two ways have parted they do not come together again: what has been read stays in what
is yielded, and nothing moves on from a brace. -/
theorem Splits.bind (hr : r.Splits E) (hf : ∀ a, (f a).Splits F)
    (hE : ∀ a, E a → ∀ s b t, f a s = .ok b t → F b)
    (hstay : ∀ a s b t, s.cursor.kind = .openCurly → f a s = .ok b t → t.cursor.kind = .openCurly) :
    (r >>= f).Splits F := by
  intro s
  rcases hr s with h | hparts
  · cases h with
    | error h => exact .inl (.error fun allowed => bind_of_error (h allowed))
    | ok h =>
      have hbind := fun allowed => bind_of_ok (f := f) (h allowed)
      exact (hf _ _).imp (·.congr hbind) (·.congr hbind)
  · refine .inr ⟨fun h => ?_, fun h => ?_⟩
    · obtain ⟨a, t, ha, hb⟩ := ok_of_bind h
      exact hE a (hparts.allowed ha) t _ _ hb
    · obtain ⟨a, t, ha, hb⟩ := ok_of_bind h
      exact hstay a t _ _ (hparts.forbidden ha) hb

theorem Splits.bind_blind (hr : r.Blind) (hf : ∀ a, (f a).Splits F) : (r >>= f).Splits F := by
  intro s
  cases hr s with
  | error h => exact .inl (.error fun allowed => bind_of_error (h allowed))
  | ok h =>
    have hbind := fun allowed => bind_of_ok (f := f) (h allowed)
    exact (hf _ _).imp (·.congr hbind) (·.congr hbind)

def Commutes (g : ParseState → ParseState) : Prop :=
  ∀ s allowed, g (s.allowing allowed) = (g s).allowing allowed

theorem Agrees.between {before after : ParseState → ParseState} (hbefore : Commutes before)
    (hafter : Commutes after) (hr : r.Agrees (before s)) : (between before after r).Agrees s := by
  cases hr with
  | @ok a t h =>
    refine .ok (a := a) (t := after t) fun allowed => ?_
    rw [← hafter, between_of_ok ((congrArg r (hbefore s allowed)).trans (h allowed))]
  | @error e t h =>
    refine .error (e := e) (t := after t) fun allowed => ?_
    rw [← hafter, between_of_error ((congrArg r (hbefore s allowed)).trans (h allowed))]

theorem Blind.inScope (hr : r.Blind) : (inScope r).Blind :=
  fun _ => (hr _).between (fun _ _ => rfl) (fun _ _ => rfl)

/-- What is read with struct literals allowed or not by its own rule is not concerned. -/
theorem blind_withStructLiterals (allowed : Bool) (r : Reader α) :
    (withStructLiterals allowed r).Blind := by
  intro s
  cases h : r (s.allowing allowed) with
  | ok a t => exact .ok (t := t) fun _ => between_of_ok h
  | error e t => exact .error (t := t) fun _ => between_of_error h

variable {limit : Nat}

theorem nested_of_lt (hs : s.depth < limit) (allowed : Bool) :
    nested limit r (s.allowing allowed) = between (fun s => { s with depth := s.depth + 1 })
      (fun s => { s with depth := s.depth - 1 }) r (s.allowing allowed) :=
  if_pos hs

theorem blind_tooDeep (limit : Nat) : (tooDeep limit : Reader α).Blind := fun s =>
  .error (e := ⟨.nestingTooDeep limit, s.cursor.position⟩) (t := s) fun _ => rfl

theorem agrees_nested_of_not (hs : ¬s.depth < limit) : (nested limit r).Agrees s :=
  (blind_tooDeep limit s).congr fun _ => if_neg hs

theorem Agrees.nested (hs : s.depth < limit) (hr : r.Agrees { s with depth := s.depth + 1 }) :
    (nested limit r).Agrees s :=
  (hr.between (fun _ _ => rfl) (fun _ _ => rfl)).congr (nested_of_lt hs)

theorem Blind.nested (hr : r.Blind) : (nested limit r).Blind := by
  intro s
  by_cases hs : s.depth < limit
  · exact .nested hs (hr _)
  · exact agrees_nested_of_not hs

theorem Splits.nested (hr : r.Splits E) : (nested limit r).Splits E := by
  intro s
  by_cases hs : s.depth < limit
  · rcases hr { s with depth := s.depth + 1 } with h | hparts
    · exact .inl (.nested hs h)
    · refine .inr ⟨fun h => ?_, fun h => ?_⟩
      · obtain ⟨u, hu, -⟩ := ok_of_between ((nested_of_lt hs true).symm.trans h)
        exact hparts.allowed hu
      · obtain ⟨u, hu, rfl⟩ := ok_of_between ((nested_of_lt hs false).symm.trans h)
        exact hparts.forbidden (t := u) hu
  · exact .inl (agrees_nested_of_not hs)

variable {round : Reader (Option α)}

theorem Blind.collect (hr : round.Blind) (fuel : Nat) : (collect round fuel).Blind := by
  induction fuel with
  | zero => exact fun s => .ok (t := s) fun _ => rfl
  | succ fuel ih =>
    intro s
    cases hr s with
    | error h => exact .error fun allowed => collect_of_error (h allowed)
    | @ok o t h =>
      cases o with
      | none => exact .ok fun allowed => collect_of_none (h allowed)
      | some a =>
        by_cases hlt : t.cursor.ahead.length < s.cursor.ahead.length
        · have hrest := ih.bind (f := fun as => pure (a :: as)) fun as s => .ok (t := s) fun _ => rfl
          exact (hrest t).congr fun allowed => collect_of_some (h allowed) hlt
        · exact .ok fun allowed => collect_of_stuck (h allowed) hlt

theorem collect_at_brace (hstop : ∀ s, s.cursor.kind = .openCurly → round s = .ok none s)
    (fuel : Nat) (hs : s.cursor.kind = .openCurly) : collect round fuel s = .ok [] s := by
  cases fuel with
  | zero => rfl
  | succ fuel => exact collect_of_none (hstop s hs)

/-- Rounds of which none goes on from a brace. -/
theorem Splits.collect (hr : round.Splits fun o => ∃ a ∈ o, E a)
    (hstop : ∀ s, s.cursor.kind = .openCurly → round s = .ok none s) (fuel : Nat) :
    (collect round fuel).Splits fun as => ∃ a ∈ as, E a := by
  induction fuel with
  | zero => exact fun s => .inl (.ok (t := s) fun _ => rfl)
  | succ fuel ih =>
    intro s
    rcases hr s with h | hparts
    · cases h with
      | error h => exact .inl (.error fun allowed => collect_of_error (h allowed))
      | @ok o t h =>
        cases o with
        | none => exact .inl (.ok fun allowed => collect_of_none (h allowed))
        | some a =>
          by_cases hlt : t.cursor.ahead.length < s.cursor.ahead.length
          · have hrest := ih.bind (f := fun as => pure (a :: as)) (F := fun as => ∃ a ∈ as, E a)
              (fun as s => .inl (.ok (t := s) fun _ => rfl))
              (by rintro as ⟨a', hmem, ha'⟩ s bs t ⟨⟩; exact ⟨a', .tail a hmem, ha'⟩)
              (by rintro as s bs t hs ⟨⟩; exact hs)
            have hrun (allowed : Bool) : Reader.collect round (fuel + 1) (s.allowing allowed) = _ :=
              collect_of_some (h allowed) hlt
            exact (hrest t).imp (·.congr hrun) (·.congr hrun)
          · exact .inl (.ok fun allowed => collect_of_stuck (h allowed) hlt)
    · refine .inr ⟨fun {as u} h => ?_, fun {as u} h => ?_⟩
      · match hround : round (s.allowing true) with
        | .error e t => simp [collect_of_error hround] at h
        | .ok none t => simpa using hparts.allowed hround
        | .ok (some a) t =>
          have ha : E a := by simpa using hparts.allowed hround
          refine ⟨a, ?_, ha⟩
          by_cases hlt : t.cursor.ahead.length < s.cursor.ahead.length
          · rw [collect_of_some hround hlt] at h
            obtain ⟨as', t', -, hok⟩ := ok_of_bind h
            cases hok
            exact List.mem_cons_self
          · rw [collect_of_stuck hround hlt] at h
            cases h
            exact List.mem_cons_self
      · match hround : round (s.allowing false) with
        | .error e t => simp [collect_of_error hround] at h
        | .ok none t =>
          rw [collect_of_none hround] at h
          cases h
          exact hparts.forbidden hround
        | .ok (some a) t =>
          have hkind := hparts.forbidden hround
          by_cases hlt : t.cursor.ahead.length < s.cursor.ahead.length
          · rw [collect_of_some hround hlt, bind_of_ok (collect_at_brace hstop fuel hkind)] at h
            cases h
            exact hkind
          · rw [collect_of_stuck hround hlt] at h
            cases h
            exact hkind

end Reader

def Act.Blind : Act α → Prop
  | .structLiterals => False
  | _ => True

/-- Goals in which brackets or blocks stand around every expression. -/
def Goal.Blind : Goal → Prop
  | .block | .elseIf | .ty | .pattern => True
  | _ => False

namespace Phrase

/-- Phrases that do not ask whether struct literals are allowed where they stand. -/
def Blind : {α : Type} → Phrase α → Prop
  | _, .done _ => True
  | _, .fail _ => True
  | _, .act a next => a.Blind ∧ ∀ b, (next b).Blind
  | _, .nested g next => g.Blind ∧ ∀ t, (next t).Blind
  | _, .enclosed body next => body.Blind ∧ ∀ b, (next b).Blind
  | _, .structLiterals _ _ next => ∀ b, (next b).Blind
  | _, .many round next => round.Blind ∧ ∀ bs, (next bs).Blind

namespace Blind

variable {p : Phrase α} {k : TokenKind}

theorem run (hp : p.Blind) {below : (g : Goal) → Reader g.Tree}
    (hb : ∀ g, g.Blind → (below g).Blind) : (p.run options below).Blind := by
  induction p with
  | done value => exact fun s => .ok (t := s) fun _ => rfl
  | fail expected => exact fun s => .error (e := s.cursor.unexpected expected) (t := s) fun _ => rfl
  | act a next ih =>
    intro s
    have hact (allowed : Bool) : a.run options (s.allowing allowed) =
        ((a.run options s).1, (a.run options s).2.allowing allowed) := by
      cases a with
      | structLiterals => exact hp.1.elim
      | take =>
        unfold Act.run ParseState.allowing
        cases h : s.cursor.ahead? 0 <;> simp [h]
      | _ => rfl
    refine (ih (a.run options s).1 (hp.2 _) (a.run options s).2).congr fun allowed => ?_
    show (next (a.run options (s.allowing allowed)).1).run options below
      (a.run options (s.allowing allowed)).2 = _
    rw [hact]
  | nested g next ih => exact (hb g hp.1).bind fun t => ih t (hp.2 t)
  | enclosed body next ihb ih => exact (ihb hp.1).inScope.bind fun b => ih b (hp.2 b)
  | structLiterals allowed body next _ ih =>
    exact (Reader.blind_withStructLiterals allowed _).bind fun b => ih b (hp b)
  | many round next ihr ih =>
    refine Reader.Blind.bind (fun s => ?_) fun bs => ih bs (hp.2 bs)
    exact ((ihr hp.1).collect (s.cursor.ahead.length + 1) s).congr fun _ => rfl

theorem bind {f : α → Phrase β} (hp : p.Blind) (hf : ∀ a, (f a).Blind) : (p >>= f).Blind := by
  rw [bind_eq_andThen]
  induction p with
  | done value => exact hf value
  | fail expected => trivial
  | act a next ih => exact ⟨hp.1, fun b => ih b (hp.2 b) hf⟩
  | nested g next ih => exact ⟨hp.1, fun t => ih t (hp.2 t) hf⟩
  | enclosed body next _ ih => exact ⟨hp.1, fun b => ih b (hp.2 b) hf⟩
  | structLiterals allowed body next _ ih => exact fun b => ih b (hp b) hf
  | many round next _ ih => exact ⟨hp.1, fun bs => ih bs (hp.2 bs) hf⟩

theorem pure {a : α} : (Pure.pure a : Phrase α).Blind := trivial

theorem fail {expected : String} : (Phrase.fail expected : Phrase α).Blind := trivial

theorem map {f : α → β} (hp : p.Blind) : (f <$> p).Blind := by
  rw [map_eq_pure_bind]
  exact hp.bind fun _ => trivial

theorem ite {c : Prop} [Decidable c] {q : Phrase α} (hp : p.Blind) (hq : q.Blind) :
    (if c then p else q).Blind := by
  split
  · exact hp
  · exact hq

theorem kind : Phrase.kind.Blind := ⟨trivial, fun _ => trivial⟩

theorem nextKind : Phrase.nextKind.Blind := ⟨trivial, fun _ => trivial⟩

theorem take : Phrase.take.Blind := ⟨trivial, fun b => by cases b <;> trivial⟩

theorem current : Phrase.current.Blind := ⟨trivial, fun b => by cases b <;> trivial⟩

theorem spanFrom {start : Span} : (Phrase.spanFrom start).Blind := ⟨trivial, fun _ => trivial⟩

theorem isConstant {name : String} : (Phrase.isConstant name).Blind := ⟨trivial, fun _ => trivial⟩

theorem goal {g : Goal} (hg : g.Blind) : (Phrase.goal g).Blind :=
  ⟨hg, fun _ => trivial⟩

theorem inScope (hp : p.Blind) : (Phrase.inScope p).Blind := ⟨hp, fun _ => trivial⟩

theorem withStructLiterals {allowed : Bool} : (Phrase.withStructLiterals allowed p).Blind :=
  fun _ => trivial

theorem repeated {round : Phrase (Option α)} (hr : round.Blind) : (Phrase.repeated round).Blind :=
  ⟨hr, fun _ => trivial⟩

theorem eat : (Phrase.eat k).Blind :=
  kind.bind fun _ => .ite (take.bind fun _ => .pure) .pure

theorem expect : (Phrase.expect k).Blind := kind.bind fun _ => .ite take .fail

theorem expectOneOf {ks : List TokenKind} {expected : String} :
    (Phrase.expectOneOf ks expected).Blind := by
  refine ⟨trivial, fun b => ?_⟩
  cases b with
  | none => trivial
  | some t => exact .ite take .fail

theorem after? (hp : p.Blind) : (Phrase.after? k p).Blind :=
  eat.bind fun _ => .ite hp.map .pure

theorem eachAfter (hp : p.Blind) : (Phrase.eachAfter k p).Blind := .repeated hp.after?

theorem afterFirst (hp : p.Blind) : (Phrase.afterFirst k p).Blind :=
  .repeated (eat.bind fun _ => .ite (kind.bind fun _ => .ite .pure hp.map) .pure)

theorem commaList (hp : p.Blind) : (Phrase.commaList k p).Blind :=
  kind.bind fun _ => .ite .pure (hp.bind fun _ => hp.afterFirst.bind fun _ => .pure)

theorem referenceLayers {layer : Bool → α → Span → α} {spanOf : α → Span} (hp : p.Blind) :
    (Phrase.referenceLayers layer spanOf p).Blind :=
  take.bind fun _ => eat.bind fun _ => hp.bind fun _ => .pure

end Blind

end Phrase

namespace Grammar

open Phrase

theorem blind_path : path.Blind :=
  Blind.expectOneOf.bind fun _ => Blind.expectOneOf.eachAfter.bind fun _ =>
    Blind.spanFrom.bind fun _ => .pure

theorem blind_ty : ty.Blind := Blind.kind.bind fun _ => .ite (.goal trivial) .fail

theorem blind_bracketType : bracketType.Blind :=
  Blind.take.bind fun _ => .bind blind_ty fun _ => Blind.eat.bind fun _ => .ite
    (Blind.withStructLiterals.bind fun _ => Blind.expect.bind fun _ =>
      Blind.spanFrom.bind fun _ => .pure)
    (Blind.expect.bind fun _ => Blind.spanFrom.bind fun _ => .pure)

theorem blind_parenType : parenType.Blind :=
  Blind.take.bind fun _ => Blind.eat.bind fun _ => .ite (Blind.spanFrom.bind fun _ => .pure) <|
    .bind blind_ty fun _ => Blind.eat.bind fun _ => .ite .pure <|
      .bind (.afterFirst blind_ty) fun _ => Blind.expect.bind fun _ =>
        Blind.spanFrom.bind fun _ => .pure

theorem blind_tyRule : tyRule.Blind := Blind.kind.bind fun k => by
  split
  · exact .map blind_path
  · exact .map blind_path
  · exact .referenceLayers blind_ty
  · exact .referenceLayers blind_ty
  · exact blind_bracketType
  · exact blind_parenType
  · exact Blind.take.map
  · exact Blind.take.map
  · exact .fail

theorem blind_pattern : pattern.Blind := .goal trivial

theorem blind_pathPattern : pathPattern.Blind :=
  .bind blind_path fun _ => Blind.eat.bind fun _ => .ite
    (.bind (.commaList blind_pattern) fun _ => Blind.expect.bind fun _ =>
      Blind.spanFrom.bind fun _ => .pure)
    .pure

theorem blind_identifierPattern : identifierPattern.Blind :=
  Blind.current.bind fun _ => Blind.eat.bind fun _ => Blind.eat.bind fun _ =>
    Blind.expect.bind fun _ => .bind (.after? blind_pattern) fun _ =>
      Blind.spanFrom.bind fun _ => .pure

theorem blind_namePattern (name : String) : (namePattern name).Blind :=
  Blind.nextKind.bind fun _ => by
    split
    · exact blind_pathPattern
    · exact blind_pathPattern
    · exact blind_identifierPattern
    · exact Blind.isConstant.bind fun _ => .ite blind_pathPattern blind_identifierPattern

theorem blind_patternRule : patternRule.Blind := Blind.current.bind fun t => by
  have hliteral : literalPattern.Blind := Blind.take.bind fun _ => .pure
  split
  · exact Blind.take.bind fun _ => Blind.expect.bind fun _ => .pure
  · exact hliteral
  · exact hliteral
  · exact hliteral
  · exact hliteral
  · exact hliteral
  · exact Blind.take.map
  · exact .referenceLayers blind_pattern
  · exact .referenceLayers blind_pattern
  · exact blind_identifierPattern
  · exact blind_identifierPattern
  · exact blind_pathPattern
  · exact blind_pathPattern
  · exact blind_namePattern _
  · exact .fail

theorem blind_block : block.Blind := .goal trivial

theorem blind_guardedBlock : guardedBlock.Blind :=
  .inScope (Blind.withStructLiterals.bind fun _ => blind_block.bind fun _ => .pure)

theorem blind_otherwise : otherwise.Blind :=
  Blind.eat.bind fun _ => .ite
    (Blind.kind.bind fun _ => .ite (Blind.map (.goal trivial)) (.map blind_block)) .pure

theorem blind_conditional : conditional.Blind :=
  Blind.expect.bind fun _ => .bind blind_guardedBlock fun _ => .bind blind_otherwise fun _ =>
    Blind.spanFrom.bind fun _ => .pure

theorem blind_rule {g : Goal} (hg : g.Blind) : (rule g).Blind := by
  cases g with
  | block => exact .inScope .withStructLiterals
  | elseIf => exact blind_conditional
  | ty => exact blind_tyRule
  | pattern => exact blind_patternRule
  | _ => exact hg.elim

end Grammar

theorem Goal.blind_read {g : Goal} (hg : g.Blind) (fuel : Nat) :
    (Goal.read options fuel g).Blind := by
  induction fuel generalizing g with
  | zero => exact Reader.blind_tooDeep _
  | succ fuel ih =>
    rw [Goal.read]
    exact ((Grammar.blind_rule hg).run fun g hg => ih hg).nested

namespace Phrase

/-- The two ways of a phrase agree or part, if goals in it may be entered in each other as often as
`fuel` says. -/
def Splits (options : ParseOptions) (fuel : Nat) (E : α → Prop) (p : Phrase α) : Prop :=
  (p.run options (Goal.read options fuel)).Splits E

def Returns (P : α → Prop) (p : Phrase α) : Prop :=
  ∀ options fuel s a t, p.run options (Goal.read options fuel) s = .ok a t → P a

theorem Returns.bind {f : α → Phrase β} {P : β → Prop} (hf : ∀ a, (f a).Returns P) (p : Phrase α) :
    (p >>= f).Returns P := by
  intro options fuel s b t h
  rw [run_bind] at h
  obtain ⟨a, u, -, hb⟩ := Reader.ok_of_bind h
  exact hf a options fuel u b t hb

namespace Splits

variable {fuel : Nat} {p : Phrase α} {E : α → Prop} {F : β → Prop}

theorem of_blind (hp : p.Blind) : p.Splits options fuel E :=
  (hp.run fun _ hg => Goal.blind_read hg fuel).splits

theorem bind_blind {f : α → Phrase β} (hp : p.Blind) (hf : ∀ a, (f a).Splits options fuel F) :
    (p >>= f).Splits options fuel F := by
  rw [Splits, run_bind]
  exact .bind_blind (hp.run fun _ hg => Goal.blind_read hg fuel) hf

theorem bind {f : α → Phrase β} (hp : p.Splits options fuel E)
    (hf : ∀ a, (f a).Splits options fuel F) (hE : ∀ a, E a → (f a).Returns F)
    (hstay : ∀ a s b t, s.cursor.kind = .openCurly →
      (f a).run options (Goal.read options fuel) s = .ok b t → t.cursor.kind = .openCurly) :
    (p >>= f).Splits options fuel F := by
  rw [Splits, run_bind]
  exact Reader.Splits.bind hp hf (fun a ha => hE a ha options fuel) hstay

/-- A value that is made from another. -/
theorem bind_pure {g : α → β} (hp : p.Splits options fuel E) (hE : ∀ a, E a → F (g a)) :
    (p >>= fun a => pure (g a)).Splits options fuel F := by
  refine hp.bind (fun a => of_blind .pure) (fun a ha => ?_) fun a => ?_
  · rintro _ _ s b t ⟨⟩
    exact hE a ha
  · rintro s b t hs ⟨⟩
    exact hs

theorem map {g : α → β} (hp : p.Splits options fuel E) (hE : ∀ a, E a → F (g a)) :
    (g <$> p).Splits options fuel F := by
  rw [map_eq_pure_bind]
  exact hp.bind_pure hE

/-- A value that is made from another and the span up to its end. -/
theorem bind_spanFrom {start : Span} {g : α → Span → β} (hp : p.Splits options fuel E)
    (hE : ∀ a sp, E a → F (g a sp)) :
    (p >>= fun a => spanFrom start >>= fun sp => pure (g a sp)).Splits options fuel F := by
  refine hp.bind (fun a => of_blind (Blind.spanFrom.bind fun _ => .pure)) (fun a ha => ?_) fun a => ?_
  · rintro _ _ s b t ⟨⟩
    exact hE a _ ha
  · rintro s b t hs ⟨⟩
    exact hs

theorem ite {c : Prop} [Decidable c] {q : Phrase α} (hp : p.Splits options fuel E)
    (hq : q.Splits options fuel E) : (if c then p else q).Splits options fuel E := by
  split
  · exact hp
  · exact hq

theorem repeated {round : Phrase (Option α)}
    (hr : round.Splits options fuel fun o => ∃ a ∈ o, E a)
    (hstop : ∀ s, s.cursor.kind = .openCurly →
      round.run options (Goal.read options fuel) s = .ok none s) :
    (repeated round).Splits options fuel fun as => ∃ a ∈ as, E a := by
  rw [Splits, run_repeated]
  intro s
  have hcollect := Reader.Splits.collect hr hstop (s.cursor.ahead.length + 1) s
  exact hcollect.imp (·.congr fun _ => rfl) (·.congr fun _ => rfl)

end Splits

end Phrase

namespace Grammar

open Phrase

variable {fuel : Nat}

theorem returns_structLiteral (p : Path) : (structLiteral p).Returns Expr.ExposesStruct := by
  refine .bind (fun _ => .bind (fun fields => .bind (fun sp => ?_) _) _) _
  rintro _ _ s e t ⟨⟩
  exact Expr.exposesStruct_iff.2 (.inl rfl)

/-- After a path the two ways part if a brace follows. -/
theorem splits_pathExpr : pathExpr.Splits options fuel Expr.ExposesStruct := by
  refine .bind_blind blind_path fun p s => ?_
  have hrun (allowed : Bool) : (do
      let next ← kind
      let allowed ← allowsStructLiterals
      if next = .openCurly ∧ allowed then structLiteral p else return .path p : Phrase Expr).run
        options (Goal.read options fuel) (s.allowing allowed) =
      (if s.cursor.kind = .openCurly ∧ allowed = true then structLiteral p
        else pure (.path p)).run options (Goal.read options fuel) (s.allowing allowed) := rfl
  by_cases hs : s.cursor.kind = .openCurly
  · refine .inr ⟨fun {e t} h => ?_, fun {e t} h => ?_⟩
    · rw [hrun, if_pos ⟨hs, rfl⟩] at h
      exact returns_structLiteral p options fuel _ e t h
    · rw [hrun, if_neg (by simp)] at h
      cases h
      exact hs
  · refine .inl (.ok (a := .path p) (t := s) fun allowed => ?_)
    rw [hrun, if_neg (by simp [hs])]
    rfl

theorem exposesStruct_of_operand {o e : Expr} (he : o ∈ e.operands) (h : o.ExposesStruct) :
    e.ExposesStruct :=
  Expr.exposesStruct_iff.2 (.inr ⟨o, he, h⟩)

section
variable (G : ∀ above, (expr above).Splits options fuel Expr.ExposesStruct)
include G

theorem splits_jumpValue : jumpValue.Splits options fuel fun v => ∃ e ∈ v, e.ExposesStruct := by
  refine .bind_blind (Blind.kind.bind fun _ => .pure) fun starts => ?_
  exact .ite (.map (G _) fun e he => ⟨e, rfl, he⟩) (.of_blind .pure)

theorem splits_term : term.Splits options fuel Expr.ExposesStruct := by
  have literal : (Expr.literal <$> take).Splits options fuel Expr.ExposesStruct :=
    .of_blind Blind.take.map
  have unary : unary.Splits options fuel Expr.ExposesStruct :=
    .bind_blind .take fun _ => (G _).bind_pure fun e => exposesStruct_of_operand List.mem_cons_self
  have borrow : (referenceLayers Expr.borrow Expr.span (expr .unary)).Splits options fuel
      Expr.ExposesStruct := by
    refine .bind_blind .take fun mark => .bind_blind .eat fun mutable => (G _).bind_pure ?_
    intro e he
    have hinner {sp : Span} : (Expr.borrow mutable e sp).ExposesStruct :=
      exposesStruct_of_operand List.mem_cons_self he
    split
    · exact exposesStruct_of_operand List.mem_cons_self hinner
    · exact hinner
  refine .bind_blind .kind fun k => ?_
  split
  · exact literal
  · exact literal
  · exact literal
  · exact literal
  · exact literal
  · exact splits_pathExpr
  · exact splits_pathExpr
  · exact splits_pathExpr
  · exact unary
  · exact unary
  · exact .bind_blind .take fun _ =>
      (G _).bind_pure fun e => exposesStruct_of_operand List.mem_cons_self
  · exact borrow
  · exact borrow
  · exact .of_blind (Blind.take.bind fun _ => Blind.withStructLiterals.bind fun _ =>
      Blind.expect.bind fun _ => Blind.spanFrom.bind fun _ => .pure)
  · exact .of_blind (Blind.take.bind fun _ => .withStructLiterals)
  · exact .of_blind Blind.take.map
  · exact .bind_blind .take fun _ => (splits_jumpValue G).bind_spanFrom fun v sp ⟨e, he, hs⟩ =>
      exposesStruct_of_operand (by simpa [Expr.operands] using he) hs
  · exact .of_blind Blind.take.map
  · exact .bind_blind .take fun _ => (splits_jumpValue G).bind_spanFrom fun v sp ⟨e, he, hs⟩ =>
      exposesStruct_of_operand (by simpa [Expr.operands] using he) hs
  · exact .of_blind (.map blind_block)
  · exact .of_blind (Blind.expect.bind fun _ => Blind.kind.bind fun _ => .ite
      (.bind blind_block fun _ => Blind.spanFrom.bind fun _ => .pure) .fail)
  · exact .of_blind (.map blind_conditional)
  · exact .of_blind (Blind.expect.bind fun _ => Blind.withStructLiterals.bind fun _ =>
      Blind.expect.bind fun _ => Blind.withStructLiterals.bind fun _ => Blind.expect.bind fun _ =>
        Blind.spanFrom.bind fun _ => .pure)
  · exact .of_blind (Blind.expect.bind fun _ => .bind blind_block fun _ =>
      Blind.spanFrom.bind fun _ => .pure)
  · exact .of_blind (Blind.expect.bind fun _ => .bind blind_guardedBlock fun _ =>
      Blind.spanFrom.bind fun _ => .pure)
  · exact .of_blind .fail

theorem splits_suffix (operator : TokenKind) (tier : Tier) :
    (suffix operator tier).Splits options fuel Suffix.ExposesStruct := by
  have arguments : arguments.Blind := .withStructLiterals
  unfold suffix
  split
  · refine .bind_blind .take fun t => (G _).bind_pure fun e he => ?_
    split
    · exact ⟨e, List.mem_cons_self, he⟩
    · exact ⟨e, List.mem_cons_self, he⟩
  · exact .of_blind (Blind.take.bind fun _ => .map blind_ty)
  · refine .ite (.of_blind ?_) (.of_blind ?_)
    · exact Blind.take.bind fun _ => arguments.bind fun _ => .pure
    · exact Blind.take.bind fun _ => Blind.withStructLiterals.bind fun _ =>
        Blind.expect.bind fun _ => .pure
  · exact .of_blind (Blind.take.bind fun _ => Blind.expectOneOf.bind fun _ => .ite
      (Blind.eat.bind fun _ => .ite (arguments.bind fun _ => .pure) .pure) .pure)
  · exact .bind_blind .take fun t => (G _).bind_pure fun e he => ⟨e, List.mem_cons_self, he⟩

omit G in
/-- A brace is no operator. -/
theorem suffix?_at_brace {above : Tier} {s : ParseState} (hs : s.cursor.kind = .openCurly) :
    (suffix? above).run options (Goal.read options fuel) s = .ok none s := by
  obtain ⟨rest, hrest, hbrace⟩ : ∃ rest, suffix? above = Phrase.kind >>= rest ∧
      rest .openCurly = pure none := ⟨_, rfl, rfl⟩
  have hrun : (suffix? above).run options (Goal.read options fuel) s =
      (rest s.cursor.kind).run options (Goal.read options fuel) s := by
    rw [hrest]
    rfl
  rw [hrun, hs, hbrace]
  rfl

theorem splits_suffixes (above : Tier) : (repeated (suffix? above)).Splits options fuel fun ss =>
    ∃ s ∈ ss, s.ExposesStruct := by
  refine .repeated (.bind_blind .kind fun k => ?_) fun s hs => suffix?_at_brace hs
  split
  · exact .ite (.map (splits_suffix G _ _) fun s hs => ⟨s, rfl, hs⟩) (.of_blind .pure)
  · exact .of_blind .pure

theorem splits_exprRule (above : Tier) : (exprRule above).Splits options fuel Expr.ExposesStruct := by
  refine .bind (splits_term G) (fun e => ?_) (fun e he => ?_) fun e s e' t hs h => ?_
  · exact (splits_suffixes G above).bind_pure fun ss hss => Suffix.exposesStruct_foldl.2 (.inr hss)
  · refine .bind (fun ss => ?_) _
    rintro _ _ s e t ⟨⟩
    exact Suffix.exposesStruct_foldl.2 (.inl he)
  · have hrounds : (repeated (suffix? above)).run options (Goal.read options fuel) s = .ok [] s := by
      rw [run_repeated]
      exact Reader.collect_at_brace (fun _ => suffix?_at_brace) _ hs
    rw [operators, run_bind, Reader.bind_of_ok hrounds] at h
    cases h
    exact hs

end

end Grammar

theorem Goal.splits_read (fuel : Nat) (above : Tier) :
    (Goal.read options fuel (.expr above)).Splits Expr.ExposesStruct := by
  induction fuel generalizing above with
  | zero => exact (Reader.blind_tooDeep _).splits
  | succ fuel ih =>
    rw [Goal.read]
    refine (Grammar.splits_exprRule (fun above => ?_) above).nested
    rw [Grammar.expr, Phrase.Splits, Phrase.run_goal]
    exact ih above

/-- The restriction on struct literals is exact. No struct literal is exposed where the block of an
`if`, a `while` or a `match` follows. An expression that exposes none is read in the same way where
struct literals are not allowed; and one that is read there, unless a brace follows it, is read in
the same way where they are. -/
theorem Session.read_structLiterals (s : Session) :
    (∀ (op : Operation) (a : op.Tree), (s.read op.phrase).1 = .ok a →
      ∀ n ∈ op.nodes a, n.Everywhere Node.HidesStructs) ∧
    ∀ above,
      let yes := (s.allowStructLiterals true).read (Grammar.expr above)
      let no := (s.allowStructLiterals false).read (Grammar.expr above)
      (∀ e, yes.1 = .ok e → ¬e.ExposesStruct →
        no.1 = .ok e ∧ no.2.state.cursor = yes.2.state.cursor) ∧
      ∀ e, no.1 = .ok e → no.2.state.cursor.kind ≠ .openCurly →
        yes.1 = .ok e ∧ yes.2.state.cursor = no.2.state.cursor := by
  refine ⟨fun op a h n hn m hm => (read_nodes op a h n hn m hm).derived.hidesStructs, fun above => ?_⟩
  have hsplit : ((Grammar.expr above).read s.options).Splits Expr.ExposesStruct := by
    rw [Grammar.expr, Phrase.read, Phrase.run_goal]
    exact Goal.splits_read _ above
  rcases hsplit s.state with hagrees | hparts
  · have hsame {allowed allowed' : Bool} {e : Expr}
        (h : ((s.allowStructLiterals allowed).read (Grammar.expr above)).1 = .ok e) :
        ((s.allowStructLiterals allowed').read (Grammar.expr above)).1 = .ok e ∧
          ((s.allowStructLiterals allowed').read (Grammar.expr above)).2.state.cursor =
            ((s.allowStructLiterals allowed).read (Grammar.expr above)).2.state.cursor := by
      have hread := ok_of_read h
      cases hagrees with
      | error herror => cases hread.symm.trans (herror allowed)
      | ok hok =>
        rw [read_of_ok (hok allowed')]
        injection hread.symm.trans (hok allowed) with he hstate
        rw [hstate, he]
        exact ⟨rfl, rfl⟩
    exact ⟨fun e he _ => hsame he, fun e he _ => hsame he⟩
  · exact ⟨fun e he hexposed => absurd (hparts.allowed (ok_of_read he)) hexposed,
      fun e he hkind => absurd (hparts.forbidden (ok_of_read he)) hkind⟩

/-- Where the brace after a path is in parentheses, the two readings are the same. -/
theorem Session.read_structLiterals_grouped :
    let s := Session.start ([TokenKind.openParen, .identifier, .openCurly, .closeCurly, .closeParen,
      .plus, .identifier].map Token.fixed) "t" ⟨6, true⟩
    ∃ e, ((s.allowStructLiterals false).read (Grammar.expr .lowest)).1 = .ok e ∧
      ((s.allowStructLiterals false).read (Grammar.expr .lowest)).2.state.cursor.kind ≠ .openCurly ∧
      ((s.allowStructLiterals true).read (Grammar.expr .lowest)).1 = .ok e ∧
      ((s.allowStructLiterals true).read (Grammar.expr .lowest)).2.state.cursor =
        ((s.allowStructLiterals false).read (Grammar.expr .lowest)).2.state.cursor := by
  intro s
  have hok : (((s.allowStructLiterals false).read (Grammar.expr .lowest)).1 matches .ok _) = true := by
    decide +kernel
  have hkind : ((s.allowStructLiterals false).read (Grammar.expr .lowest)).2.state.cursor.kind ≠
      .openCurly := by decide +kernel
  cases h : ((s.allowStructLiterals false).read (Grammar.expr .lowest)).1 with
  | ok e => exact ⟨e, rfl, hkind, (s.read_structLiterals.2 .lowest).2 e h hkind⟩
  | error e => simp [h] at hok

end FrontEnd
