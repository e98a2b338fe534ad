import FrontEnd.Proofs.Soundness
import FrontEnd.Proofs.Tree.Node
import FrontEnd.Proofs.Tree.Written
/-!
# Nesting in trees

The limit on levels bounds how deep the trees are that are read. A way down a tree is a list of
indices, each of a child of the node reached so far, and every expression, block, type and pattern
on it takes a level. Only what is read by the goal of its parent takes none: what an operator
attaches to, the inner layer of a reference, and the value that a shorthand stands for.
-/
namespace FrontEnd

/-- The expressions that begin with another one, which was read before their operator. -/
def Expr.attaches : Expr → Bool
  | binary _ _ _ _ _ | cast _ _ _ | assign _ _ _ | compoundAssign _ _ _ _ => true
  | index _ _ _ | call _ _ _ | methodCall _ _ _ _ | field _ _ _ => true
  | _ => false

namespace Node

/-- The levels that a node takes where it stands alone. -/
def level : Node → Nat
  | expr _ | block _ | ty _ | pattern _ => 1
  | _ => 0

/-- Whether a layer of borrow or of reference is mutable. -/
def layer? : Node → Option Bool
  | expr (.borrow mutable _ _) => some mutable
  | ty (.reference mutable _ _) => some mutable
  | pattern (.reference mutable _ _) => some mutable
  | _ => none

/-- Whether the child at an index takes no level: the left operand, assignee, operand of a cast,
base, callee or receiver, a layer right inside a shared layer, the value of a shorthand field. -/
def exempts (n : Node) (index : Nat) (child : Node) : Bool :=
  n.layer? == some false && child.layer?.isSome || match n with
    | expr e => e.attaches && index == 0
    | field f => f.shorthand
    | _ => false

/-- The levels that the nodes on a way down from a node take, itself apart. The way is a list of
indices of children, and ends early where there is no such child. -/
def levelsAlong (n : Node) : List Nat → Nat
  | [] => 0
  | index :: way =>
    match n.children[index]? with
    | some child => child.levelsAlong way + if n.exempts index child then 0 else child.level
    | none => 0

/-- All ways down from a node take at most so many levels, together with its own. -/
def Fits (ℓ : Nat) (n : Node) : Prop := ∀ way, n.levelsAlong way + n.level ≤ ℓ

variable {n : Node} {ℓ ℓ' : Nat}

theorem level_le (n : Node) : n.level ≤ 1 := by
  cases n <;> simp [level]

theorem Fits.mono (h : n.Fits ℓ) (hℓ : ℓ ≤ ℓ') : n.Fits ℓ' := fun way => Nat.le_trans (h way) hℓ

/-- A child adds its own level to those below it, unless it is exempt. -/
theorem fits_of_forall (h : ∀ (i : Nat) (c : Node), n.children[i]? = some c →
    c.Fits (ℓ + if n.exempts i c then c.level else 0)) : n.Fits (ℓ + n.level) := by
  intro way
  refine Nat.add_le_add_right ?_ _
  cases way with
  | nil => exact Nat.zero_le _
  | cons i way =>
    rw [levelsAlong]
    split
    · next c hc =>
      have hfits := h i c hc way
      split at hfits <;> simp_all
    · exact Nat.zero_le _

theorem fits_of_children (h : ∀ c ∈ n.children, c.Fits ℓ) : n.Fits (ℓ + n.level) :=
  fits_of_forall fun _ c hc => (h c (List.mem_of_getElem? hc)).mono (Nat.le_add_right ..)

/-- The inner layer takes the level of the outer one. -/
theorem fits_layers {inner : Node} (hn : n.layer? = some false) (hinner : inner.layer?.isSome)
    (hc : n.children = [inner]) (h : inner.Fits (ℓ + inner.level)) : n.Fits (ℓ + n.level) := by
  refine fits_of_forall fun i c hi => ?_
  rw [hc] at hi
  obtain rfl : inner = c := by
    cases i with
    | zero => exact Option.some.inj hi
    | succ i => cases hi
  have hexempt : n.exempts i inner = true := by
    cases n <;> simp_all [exempts, layer?]
  simpa [hexempt] using h

/-- A shorthand stands for a path, which takes no level and nor does its expression. -/
theorem fits_shorthand {name : Token} {p : Path} : (field ⟨name, .path p, true⟩).Fits ℓ := by
  have hpath : (path p).Fits ℓ := fits_of_children nofun
  have hvalue : (expr (.path p)).Fits (ℓ + 1) :=
    fits_of_children (List.forall_mem_singleton.2 hpath)
  refine fits_of_forall fun i c hi => ?_
  obtain rfl : expr (.path p) = c := List.mem_singleton.1 (List.mem_of_getElem? hi) |>.symm
  exact hvalue

/-- What a suffix is attached to takes the level of what they are together. -/
theorem fits_attach {e : Expr} {s : Suffix} (he : (expr e).Fits (ℓ + 1))
    (hs : ∀ c ∈ s.nodes, c.Fits ℓ) : (expr (s.attach e)).Fits (ℓ + 1) := by
  refine fits_of_forall (n := expr (s.attach e)) fun i c hi => ?_
  rw [children, Suffix.children_attach] at hi
  cases i with
  | zero =>
    obtain rfl : expr e = c := Option.some.inj hi
    have hexempt : (expr (s.attach e)).exempts 0 (expr e) = true := by
      cases s <;> simp [exempts, Suffix.attach, Expr.attaches]
    simpa [hexempt, level] using he
  | succ i => exact (hs c (List.mem_of_getElem? hi)).mono (Nat.le_add_right ..)

theorem fits_foldl_attach {ss : List Suffix} {e : Expr} (he : (expr e).Fits (ℓ + 1))
    (hss : ∀ c ∈ ss.flatMap Suffix.nodes, c.Fits ℓ) :
    (expr (ss.foldl Suffix.attach e)).Fits (ℓ + 1) := by
  induction ss generalizing e with
  | nil => exact he
  | cons s ss ih =>
    obtain ⟨hs, hss⟩ := List.forall_mem_append.1 hss
    exact ih (fits_attach he hs) hss

end Node

open Node (Fits)

/-- The levels that the nodes of a form fit in: a term is read by the goal of its expression. -/
def Form.room : Form → Nat → Nat
  | term, ℓ => ℓ + 1
  | after _ form, ℓ | eachAfter _ form, ℓ | list _ form, ℓ | more _ form, ℓ => form.room ℓ
  | _, ℓ => ℓ

variable {resolve b : Bool} {σ : Form} {ℓ : Nat} {x y : Place} {t : σ.Tree}

/-- What is derived with some levels left fits in them. -/
theorem Derives.fits (h : Derives resolve σ ℓ b x t y) : ∀ n ∈ σ.nodes t, n.Fits (σ.room ℓ) := by
  have inside {n : Node} {ℓ : Nat} (hn : n.level = 0) (h : ∀ c ∈ n.children, c.Fits ℓ) :
      ∀ m ∈ [n], m.Fits ℓ := by
    have hfits := Node.fits_of_children h
    rw [hn] at hfits
    exact List.forall_mem_singleton.2 hfits
  have deeper {n : Node} {ℓ : Nat} (h : ∀ c ∈ n.children, c.Fits ℓ) : ∀ m ∈ [n], m.Fits (ℓ + 1) :=
    List.forall_mem_singleton.2
      ((Node.fits_of_children h).mono (Nat.add_le_add_left n.level_le ℓ))
  have later {ns : List Node} {ℓ : Nat} (h : ∀ n ∈ ns, n.Fits ℓ) : ∀ n ∈ ns, n.Fits (ℓ + 1) :=
    fun n hn => (h n hn).mono (Nat.le_succ ℓ)
  have both {ℓ : Nat} {l₁ l₂ : List Node} (h₁ : ∀ n ∈ l₁, n.Fits ℓ) (h₂ : ∀ n ∈ l₂, n.Fits ℓ) :
      ∀ n ∈ l₁ ++ l₂, n.Fits ℓ := List.forall_mem_append.2 ⟨h₁, h₂⟩
  have each {α : Type} {ℓ : Nat} {f : α → Node} {as : List α}
      (h : ∀ n ∈ as.flatMap fun a => [f a], n.Fits ℓ) : ∀ n ∈ as.map f, n.Fits ℓ := by
    rwa [List.map_eq_flatMap]
  induction h with
  -- what has no nodes, or none but those of its parts
  | segment | name | flagSet | flagUnset | afterNothing | eachNil | listNil | moreNil | moreComma =>
    exact nofun
  | suffixesNil | jumpNothing | sufField | elementsNil | stmtEmpty | armsNil | signature
  | membersNil | itemsNil => exact nofun
  | afterSome hk h ha iha => exact both iha nofun
  | eachCons hk h ha has iha ihas => exact both iha ihas
  | listCons hl h ha has iha ihas => exact both iha ihas
  | moreCons hl ht h ha has iha ihas => exact both iha ihas
  | path h hts ihts => exact inside rfl nofun
  -- types
  | tyPath h hp ihp => exact deeper ihp
  | tyReference h hm ha ihm iha => exact deeper iha
  | tyReferences h hm ha ihm iha =>
    refine List.forall_mem_singleton.2 (Node.fits_layers rfl rfl rfl ?_)
    exact List.forall_mem_singleton.1 (deeper iha)
  | tySlice h ha hc iha => exact deeper iha
  | tyArray h ha hs he hc iha ihe => exact deeper (both iha ihe)
  | tyUnit | tyNever | tyInferred => exact deeper nofun
  | tyParen h ha hc iha => exact later iha
  | tyTuple h ha hy has iha ihas => exact deeper (both iha (each ihas))
  -- patterns
  | patLiteral | patNegated | patWildcard => exact deeper nofun
  | patReference h hm hp ihm ihp => exact deeper ihp
  | patReferences h hm hp ihm ihp =>
    refine List.forall_mem_singleton.2 (Node.fits_layers rfl rfl rfl ?_)
    exact List.forall_mem_singleton.1 (deeper ihp)
  | patBinding h hr hm ht hs ihr ihm ihs => exact deeper (each ihs)
  | patPath h hp hy ihp => exact deeper ihp
  | patTuple h hp ht hps ihp ihps => exact deeper (both ihp (each ihps))
  -- terms
  | expr he hs ihe ihs =>
    exact List.forall_mem_singleton.2
      (Node.fits_foldl_attach (List.forall_mem_singleton.1 ihe) ihs)
  | suffixesCons h hτ hs hss ihs ihss => exact both ihs ihss
  | termLiteral | termEmptyArray | termUnderscore | termContinue => exact deeper nofun
  | termPath hp hy ihp => exact deeper ihp
  | termStruct hp ht hfs ihp ihfs => exact deeper (both ihp (each ihfs))
  | termUnary h he ihe | termDeref h he ihe | termGrouped h he hc ihe => exact deeper ihe
  | termBorrow h hm he ihm ihe => exact deeper ihe
  | termBorrows h hm he ihm ihe =>
    refine List.forall_mem_singleton.2 (Node.fits_layers rfl rfl rfl ?_)
    exact List.forall_mem_singleton.1 (deeper ihe)
  | termArray h he hes ihe ihes => exact deeper (both ihe (each ihes))
  | termRepeat h he hs hl hc ihe ihl => exact deeper (both ihe ihl)
  | termBreak h hv ihv | termReturn h hv ihv => exact deeper ihv
  | termBlock h ihb | termConst h hb ihb | termLoop h hb ihb => exact deeper ihb
  | termIf h ihc => exact deeper ihc
  | termMatch h he ho has ihe ihas => exact deeper (both ihe ihas)
  | termWhile h hc hb ihc ihb => exact deeper (both ihc ihb)
  | fieldLong h hc he ihe => exact inside rfl ihe
  | fieldShort h hi => exact List.forall_mem_singleton.2 Node.fits_shorthand
  | jumpValue h ihe => exact ihe
  -- suffixes
  | sufBinary h hτ he ihe | sufCompound h ht he ihe => exact ihe
  | sufAssign h he ihe | sufIndex h he hc ihe => exact ihe
  | sufCast h ha iha => exact iha
  | sufCall h hes ihes | sufMethod h hf' ho hes ihes => exact each ihes
  -- blocks and statements
  | stmtExpr h he ihe => exact ihe
  | stmtBlockLike h he hy ihe => exact ihe
  | stmtMember h he hy hs ihe ihs =>
    exact List.forall_mem_singleton.2
      (Node.fits_foldl_attach (List.forall_mem_singleton.1 ihe) ihs)
  | block h hs ihs => exact deeper ihs
  | elementsTail h he hc ihe => exact later ihe
  | elementsCons hs hss ihs ihss => exact (both (later ihs) ihss :)
  | elementStmt h hs ihs => exact inside rfl ihs
  | elementExpr h he hs ihe | elementBlockLike h he hs hc hb ihe => exact inside rfl ihe
  | stmtItem h ih => exact ih
  | stmtLet h hp ha hv hs ihp iha ihv => exact both ihp (both (each iha) (each ihv))
  -- conditions and branches
  | linkLet h hp hs hv ihp ihv => exact inside rfl (both ihp ihv)
  | linkOfLet h ih => exact ih
  | linkTest h ihv => exact inside rfl ihv
  | condExpr h ihe => exact inside rfl ihe
  | condLet hl hls ihl ihls => exact inside rfl (both ihl (each ihls))
  | conditional h hc hb ho ihc ihb iho => exact inside rfl (both ihc (both ihb iho))
  | elseNothing h => exact inside rfl nofun
  | elseIf h hc ihc => exact deeper ihc
  | elseBlock h hb ihb => exact inside rfl ihb
  | arm hp hg hf' he ihp ihg ihe => exact deeper (both ihp (both (each ihg) ihe))
  | armsComma ha ht has iha ihas => exact both iha ihas
  | armsBare ha hy hc has iha ihas => exact both iha ihas
  -- items
  | typedName h hc ha iha | param h hc ha iha => exact inside rfl iha
  | selfReference h hm hs ihm => exact inside rfl nofun
  | selfValue hm hs ha ihm iha => exact inside rfl (each iha)
  | paramsPlain h ih => exact each ih
  | paramsSelf h hc ih => exact ih
  | paramsMore h ht hps ih ihps => exact both ih (each ihps)
  | body h ihb => exact ihb
  | function hc hf' ht hp hps hr hb ihc ihps ihr ihb =>
    exact inside rfl (both ihps (both (each ihr) ihb))
  | constant h hc hd ha hv hn hs iha ihv => exact inside rfl (both iha (each ihv))
  | memberFunction h ih | memberConstant h ih => exact inside rfl ih
  | membersCons ha has iha ihas => exact both iha ihas
  | itemFunction h ih | itemConstant h ih => exact inside rfl ih
  | itemUnit | itemEnum => exact inside rfl nofun
  | itemStruct h hc ho hfs ihfs => exact inside rfl (each ihfs)
  | itemTrait h hc ho hms ihms => exact inside rfl ihms
  | itemImpl h hi ha ho hms iha ihms => exact inside rfl (both iha ihms)
  | itemImplFor h hc hf' ha ho hms iha ihms => exact inside rfl (both iha ihms)
  | declaredItem h ih => exact ih
  | itemsCons ha has iha ihas => exact both iha ihas

/-- On every way down the tree of a file there are at most as many expressions, blocks, types and
patterns as there are levels, not counting those that are exempt. -/
theorem parse_nesting {tokens : List Token} {file : String} {options : ParseOptions} {c : Crate}
    {s : ParseState} (h : parse tokens file options = .ok c s) :
    ∀ i ∈ c.items, ∀ way, (Node.item i).levelsAlong way ≤ options.maxDepth :=
  fun i hi => (parse_sound h).1.fits (.item i) (List.mem_map_of_mem hi)

/-- The length of an array type, `-break`, stands on the third level of three. -/
theorem parse_nesting_array :
    let tokens := [TokenKind.kwConst, .underscore, .colon, .openBracket, .bang, .semicolon, .dash,
      .kwBreak, .closeBracket, .assignment, .kwBreak, .semicolon].map Token.fixed
    ∃ c s, parse tokens "t" ⟨3, true⟩ = .ok c s ∧ ∃ i ∈ c.items,
      (Node.item i).levelsAlong [0, 0, 1, 0] = 3 ∧ ∀ way, (Node.item i).levelsAlong way ≤ 3 := by
  intro tokens
  obtain ⟨c, s, h, hthree⟩ := exists_ok_of_succeeds (r := parse tokens "t" ⟨3, true⟩)
    (P := fun c _ => c.items.any fun i => (Node.item i).levelsAlong [0, 0, 1, 0] == 3)
    (by decide +kernel)
  obtain ⟨i, hi, hthree⟩ := List.any_eq_true.1 hthree
  exact ⟨c, s, h, i, hi, beq_iff_eq.1 hthree, parse_nesting h i hi⟩

end FrontEnd
