/-
Climbing — the grammar, read from the left.

`Derives` says which tokens make up an expression, but its rule for
operators opens with the left operand and so does not say where to begin.
`Climbs` says the same in the order of reading: an operand comes first, and
then every operator that binds tightly enough, each with its right operand.
The token ahead settles every choice.

Main statements: `Derives.climbs` and `Climbs.derives`, that both say the
same; `Climbs.unique`, that reading leaves no choice; and so
`DerivesProgram.unique`, that the grammar is unambiguous.
-/
import Pixelwise.Syntax.Grammar

namespace Pixelwise.Syntax

/-! ## Levels and signs -/

theorem Precedence.le_iff {a b : Precedence} : a ≤ b ↔ a.rank ≤ b.rank := Iff.rfl

theorem rank_le_next (level : Precedence) : level.rank ≤ level.next.rank := by
  cases level <;> decide

theorem rank_next {level : Precedence} (h : level ≠ .primary) :
    level.next.rank = level.rank + 1 := by
  cases level <;> first | rfl | exact absurd rfl h

theorem rank_injective {a b : Precedence} (h : a.rank = b.rank) : a = b := by
  cases a <;> cases b <;> first | rfl | cases h

theorem rank_operator (op : Operator) : 2 ≤ op.precedence.rank ∧ op.precedence.rank ≤ 8 := by
  cases op <;> decide

theorem rank_next_operator (op : Operator) :
    op.precedence.next.rank = op.precedence.rank + 1 := by
  cases op <;> rfl

/-- The right operand of an operator is no assignment. -/
theorem next_not_assignment (op : Operator) : ¬ op.precedence.next ≤ .assignment := by
  cases op <;> decide

/-- The signs of a level are the operators of that level. -/
theorem mem_signs_iff {kind : Token.Kind} {op : Operator} {level : Precedence} :
    (kind, op) ∈ signs level ↔ kind.operator = some op ∧ op.precedence = level := by
  constructor
  · intro h
    have : ∀ p ∈ signs level, p.1.operator = some p.2 ∧ p.2.precedence = level := by
      cases level <;> simp [signs, Token.Kind.operator, Operator.precedence]
    exact this _ h
  · rintro ⟨hk, rfl⟩
    cases kind <;> cases hk <;> simp [signs, Operator.precedence]

theorem mem_unarySigns_iff {kind : Token.Kind} {op : UnaryOp} :
    (kind, op) ∈ unarySigns ↔ kind.opening = some (.unary op) := by
  constructor
  · intro h
    simp only [unarySigns, List.mem_cons, List.not_mem_nil, or_false, Prod.mk.injEq] at h
    rcases h with ⟨rfl, rfl⟩ | ⟨rfl, rfl⟩ <;> rfl
  · intro h
    cases kind <;> cases h <;> simp [unarySigns]

/-! ## What stands ahead -/

/-- The kind of the first token. -/
def kindAhead : List Token → Token.Kind
  | [] => .endOfInput
  | t :: _ => t.kind

@[simp] theorem kindAhead_cons (t : Token) (ts : List Token) : kindAhead (t :: ts) = t.kind := rfl

/-- No operator that binds at least as tightly as `level` stands ahead. -/
def Ends (level : Precedence) (rest : List Token) : Prop :=
  ∀ op, (kindAhead rest).operator = some op → ¬ level ≤ op.precedence

/-- What stands ahead goes on with no operand of `level`: it opens no
arguments and no value, and an operator binds no tighter than `level`. -/
structure Continues (level : Precedence) (rest : List Token) : Prop where
  noParen : kindAhead rest ≠ .leftParen
  noEqual : kindAhead rest ≠ .equal
  loose : ∀ op, (kindAhead rest).operator = some op → op.precedence ≤ level

theorem Continues.tighten {a b : Precedence} {rest : List Token} (h : Continues a rest)
    (hab : a ≤ b) : Continues b rest :=
  ⟨h.noParen, h.noEqual, fun op ho => Nat.le_trans (h.loose op ho) hab⟩

/-- Tokens that are no operator go on with nothing. -/
theorem Continues.of_none {level : Precedence} {rest : List Token}
    (hp : kindAhead rest ≠ .leftParen) (he : kindAhead rest ≠ .equal)
    (ho : (kindAhead rest).operator = none) : Continues level rest :=
  ⟨hp, he, fun op h => absurd (ho.symm.trans h) (by simp)⟩

theorem continues_of_closing {t : Token} (ts : List Token)
    (h : t.kind = .rightParen ∨ t.kind = .comma ∨ t.kind = .semicolon) :
    Continues .assignment (t :: ts) := by
  rcases h with h | h | h <;> refine .of_none ?_ ?_ ?_ <;> simp [h, Token.Kind.operator]

theorem continues_of_operator {level : Precedence} {t : Token} {ts : List Token} {op : Operator}
    (h : t.kind.operator = some op) (hle : op.precedence ≤ level) : Continues level (t :: ts) := by
  refine ⟨fun e => ?_, fun e => ?_, fun op' ho => ?_⟩
  · rw [kindAhead_cons] at e
    simp [e, Token.Kind.operator] at h
  · rw [kindAhead_cons] at e
    simp [e, Token.Kind.operator] at h
  · cases h.symm.trans ho
    exact hle

/-- No operator binds looser than the loosest level of operators. -/
theorem Continues.ends_assignment {rest : List Token} (h : Continues .assignment rest) :
    Ends .assignment rest := by
  intro op ho
  have hle : op.precedence.rank ≤ 1 := h.loose op ho
  have := (rank_operator op).1
  omega

/-! ## Reading from the left -/

mutual

/-- `Climbs level ts e rest`: the tokens `ts` open with the expression `e`,
whose operators bind at least as tightly as `level`, and go on with `rest`. -/
inductive Climbs : Precedence → List Token → Expr → List Token → Prop
  | intro {level : Precedence} {ts mid rest : List Token} {first e : Expr} :
      Opens (decide (level ≤ .assignment)) ts first mid → Chains level first mid e rest →
      Climbs level ts e rest

/-- The tokens open with an operand, or with an assignment where one may
stand. -/
inductive Opens : Bool → List Token → Expr → List Token → Prop
  | number {b : Bool} {t : Token} {rest : List Token} :
      t.kind = .number → Opens b (t :: rest) (.number t) rest
  | name {b : Bool} {t : Token} {rest : List Token} :
      t.kind = .identifier → ¬ (b = true ∧ kindAhead rest = .equal) →
      kindAhead rest ≠ .leftParen → Opens b (t :: rest) (.name t) rest
  | group {b : Bool} {opening closing : Token} {ts rest : List Token} {inner : Expr} :
      opening.kind = .leftParen → Climbs .assignment ts inner (closing :: rest) →
      closing.kind = .rightParen → Opens b (opening :: ts) (.group inner closing) rest
  | call {b : Bool} {callee opening closing : Token} {ts rest : List Token}
      {args : List Expr} :
      callee.kind = .identifier → opening.kind = .leftParen →
      Passes ts args (closing :: rest) → closing.kind = .rightParen →
      Opens b (callee :: opening :: ts) (.call callee args closing) rest
  | unary {b : Bool} {sign : Token} {op : UnaryOp} {ts rest : List Token} {operand : Expr} :
      sign.kind.opening = some (.unary op) → Climbs .unary ts operand rest →
      Opens b (sign :: ts) (.unary op operand) rest
  | assign {target sign : Token} {ts rest : List Token} {value : Expr} :
      target.kind = .identifier → sign.kind = .equal → Climbs .assignment ts value rest →
      Opens true (target :: sign :: ts) (.assign target value) rest

/-- After the operand `left`, the tokens go on with operators and their right
operands, all of which make up `e`. -/
inductive Chains : Precedence → Expr → List Token → Expr → List Token → Prop
  | done {level : Precedence} {e : Expr} {rest : List Token} :
      Ends level rest → Chains level e rest e rest
  | more {level : Precedence} {sign : Token} {op : Operator} {ts mid rest : List Token}
      {left right e : Expr} :
      sign.kind.operator = some op → level ≤ op.precedence →
      Climbs op.precedence.next ts right mid → Chains level (.binary op left right) mid e rest →
      Chains level left (sign :: ts) e rest

/-- The tokens open with the arguments of a call. -/
inductive Passes : List Token → List Expr → List Token → Prop
  | none {rest : List Token} : kindAhead rest = .rightParen → Passes rest [] rest
  | one {ts rest : List Token} {e : Expr} :
      Climbs .assignment ts e rest → kindAhead rest ≠ .comma → Passes ts [e] rest
  | more {ts mid rest : List Token} {comma : Token} {e f : Expr} {es : List Expr} :
      Climbs .assignment ts e (comma :: mid) → comma.kind = .comma →
      Passes mid (f :: es) rest → Passes ts (e :: f :: es) rest

end

theorem Chains.ends {level : Precedence} {ts rest : List Token} {left e : Expr} :
    Chains level left ts e rest → Ends level rest
  | .done h => h
  | .more _ _ _ h => h.ends

theorem Climbs.ends {level : Precedence} {ts rest : List Token} {e : Expr} :
    Climbs level ts e rest → Ends level rest
  | .intro _ h => h.ends

/-- An operand opens with a token that can open one. -/
theorem Opens.opening {b : Bool} {ts rest : List Token} {e : Expr} :
    Opens b ts e rest → (kindAhead ts).opening.isSome
  | .number h | .name h _ _ | .group h _ _ | .call h _ _ _ | .assign h _ _ => by
      simp [h, Token.Kind.opening]
  | .unary h _ => by simp [h]

theorem Climbs.opening {level : Precedence} {ts rest : List Token} {e : Expr} :
    Climbs level ts e rest → (kindAhead ts).opening.isSome
  | .intro h _ => h.opening

/-! ## What the grammar derives can be read -/

mutual

/-- What a level derives can be read at any looser level, where reading goes
on with the operators that follow. -/
theorem Derives.climbs_chain :
    ∀ {k : Precedence} {ts : List Token} {first : Expr}, Derives k ts first →
      ∀ (level : Precedence) (mid rest : List Token) (e : Expr), level ≤ k →
        Continues k mid → Chains level first mid e rest → Climbs level (ts ++ mid) e rest
  | _, _, _, .number h, _, _, _, _, _, _, hchain => .intro (.number h) hchain
  | _, _, _, .name h, _, _, _, _, _, hc, hchain =>
      .intro (.name h (fun he => hc.noEqual he.2) hc.noParen) hchain
  | _, _, _, .group ho hi hc, level, mid, _, _, _, _, hchain => by
      have hk := continues_of_closing mid (Or.inl hc)
      have inner := hi.climbs_chain _ _ _ _ (Nat.le_refl _) hk (.done hk.ends_assignment)
      simp only [List.cons_append, List.append_assoc, List.nil_append]
      exact .intro (.group ho inner hc) hchain
  | _, _, _, .call hf ho ha hc, level, mid, _, _, _, _, hchain => by
      simp only [List.cons_append, List.append_assoc, List.nil_append]
      exact .intro (.call hf ho (ha.passes _ hc) hc) hchain
  | _, _, _, .unary hs hd, level, mid, _, _, _, hc, hchain => by
      have hends : Ends .unary mid := fun op _ hle =>
        absurd (Nat.le_trans hle (rank_operator op).2) (by decide)
      have operand := hd.climbs_chain _ _ _ _ (Nat.le_refl _) hc (.done hends)
      exact .intro (.unary (mem_unarySigns_iff.mp hs) operand) hchain
  | k, _, _, @Derives.binary _ _ op _ _ _ _ hs hl hr, level, mid, _, _, hlevel, hc, hchain => by
      obtain ⟨ho, hk⟩ := mem_signs_iff.mp hs
      have hends : Ends k.next mid := fun op' ho' hle => by
        have h₁ := hc.loose op' ho'
        rw [← hk, Precedence.le_iff] at h₁ hle
        rw [rank_next_operator] at hle
        omega
      have right := hr.climbs_chain _ _ _ _ (Nat.le_refl _) (hc.tighten (rank_le_next _))
        (.done hends)
      rw [List.append_assoc]
      exact hl.climbs_chain _ _ _ _ hlevel (continues_of_operator ho (hk ▸ Nat.le_refl _))
        (.more ho (hk ▸ hlevel) (hk ▸ right) hchain)
  | k, _, _, .tighter hd, level, _, _, _, hlevel, hc, hchain =>
      hd.climbs_chain _ _ _ _ (Nat.le_trans hlevel (rank_le_next k))
        (hc.tighten (rank_le_next k)) hchain
  | _, _, _, .assign ht hs hd, level, _, _, _, hlevel, hc, hchain => by
      have value := hd.climbs_chain _ _ _ _ (Nat.le_refl _) hc (.done hc.ends_assignment)
      refine .intro ?_ hchain
      rw [decide_eq_true hlevel]
      exact .assign ht hs value

theorem DerivesArgs.passes :
    ∀ {ts : List Token} {es : List Expr}, DerivesArgs ts es →
      ∀ (rest : List Token), kindAhead rest = .rightParen → Passes (ts ++ rest) es rest
  | _, _, .none, _, h => .none h
  | _, _, .one hd, rest, h => by
      have hc : Continues .assignment rest := by
        refine .of_none ?_ ?_ ?_ <;> simp [h, Token.Kind.operator]
      exact .one (hd.climbs_chain _ _ _ _ (Nat.le_refl _) hc (.done hc.ends_assignment))
        (by simp [h])
  | _, _, @DerivesArgs.more _ ts _ _ _ _ hd hk ha, rest, h => by
      have hc := continues_of_closing (ts ++ rest) (Or.inr (Or.inl hk))
      rw [List.append_assoc]
      exact .more (hd.climbs_chain _ _ _ _ (Nat.le_refl _) hc (.done hc.ends_assignment)) hk
        (ha.passes _ h)

end

/-- An expression is read up to tokens that do not go on with it. -/
theorem Derives.climbs {ts rest : List Token} {e : Expr} (h : Derives .assignment ts e)
    (hc : Continues .assignment rest) : Climbs .assignment (ts ++ rest) e rest :=
  h.climbs_chain _ _ _ _ (Nat.le_refl _) hc (.done hc.ends_assignment)

/-! ## What can be read is derived -/

/-- What a level derives, every looser level derives. -/
theorem Derives.loosen {k level : Precedence} {ts : List Token} {e : Expr}
    (h : Derives k ts e) (hle : level ≤ k) : Derives level ts e := by
  induction hn : k.rank - level.rank generalizing level with
  | zero =>
      have : level = k := rank_injective (Nat.le_antisymm hle (Nat.sub_eq_zero_iff_le.mp hn))
      rwa [this]
  | succ n ih =>
      have hnext : level.next.rank = level.rank + 1 := rank_next fun e => by
        subst e
        have : k.rank ≤ Precedence.primary.rank := by cases k <;> decide
        omega
      exact .tighter (ih (Precedence.le_iff.mpr (by omega)) (by omega))

/-- Every operator binds looser than the signs before an operand. -/
theorem loose_unary {rest : List Token} :
    ∀ op, (kindAhead rest).operator = some op → op.precedence ≤ .unary :=
  fun op _ => Nat.le_trans (rank_operator op).2 (by decide)

mutual

theorem Climbs.derives :
    ∀ {level : Precedence} {ts : List Token} {e : Expr} {rest : List Token},
      Climbs level ts e rest → level ≤ .unary → ∃ us, ts = us ++ rest ∧ Derives level us e
  | level, _, _, _, .intro ho hchain, hlevel => by
      obtain ⟨us, k, rfl, hd, hk, hops⟩ := ho.derives
      have hle : level ≤ k := by
        rcases hk with rfl | ⟨hb, rfl⟩
        · exact hlevel
        · exact of_decide_eq_true hb
      obtain ⟨vs, rfl, hd'⟩ := hchain.derives hlevel hd hle hops
      exact ⟨us ++ vs, by rw [List.append_assoc], hd'⟩

/-- What opens an expression is an operand, or an assignment after which no
operator can stand. -/
theorem Opens.derives :
    ∀ {b : Bool} {ts : List Token} {e : Expr} {rest : List Token}, Opens b ts e rest →
      ∃ us k, ts = us ++ rest ∧ Derives k us e ∧
        (k = .unary ∨ b = true ∧ k = .assignment) ∧
        ∀ op, (kindAhead rest).operator = some op → op.precedence ≤ k
  | _, _, _, _, .number h =>
      ⟨[_], .unary, rfl, (Derives.number h).loosen (by decide), Or.inl rfl, loose_unary⟩
  | _, _, _, _, .name h _ _ =>
      ⟨[_], .unary, rfl, (Derives.name h).loosen (by decide), Or.inl rfl, loose_unary⟩
  | _, _, _, _, .group ho hi hc => by
      obtain ⟨us, rfl, hd⟩ := hi.derives (by decide)
      refine ⟨_, .unary, ?_, (Derives.group ho hd hc).loosen (by decide), Or.inl rfl, loose_unary⟩
      simp
  | _, _, _, _, .call hf ho ha hc => by
      obtain ⟨us, rfl, hd⟩ := ha.derives
      refine ⟨_, .unary, ?_, (Derives.call hf ho hd hc).loosen (by decide), Or.inl rfl,
        loose_unary⟩
      simp
  | _, _, _, _, .unary hs hi => by
      obtain ⟨us, rfl, hd⟩ := hi.derives (by decide)
      exact ⟨_, .unary, rfl, .unary (mem_unarySigns_iff.mpr hs) hd, Or.inl rfl, loose_unary⟩
  | _, _, _, _, .assign ht hs hi => by
      obtain ⟨us, rfl, hd⟩ := hi.derives (by decide)
      refine ⟨_, .assignment, rfl, .assign ht hs hd, Or.inr ⟨rfl, rfl⟩, fun op hop => ?_⟩
      have hle : Precedence.assignment ≤ op.precedence :=
        Nat.le_trans (by decide) (rank_operator op).1
      exact absurd hle (hi.ends op hop)

/-- Operators join what was read before, of a level that they may follow, to
what is read after. -/
theorem Chains.derives :
    ∀ {level : Precedence} {left : Expr} {ts : List Token} {e : Expr} {rest : List Token},
      Chains level left ts e rest → level ≤ .unary →
      ∀ {k : Precedence} {ls : List Token}, Derives k ls left → level ≤ k →
        (∀ op, (kindAhead ts).operator = some op → op.precedence ≤ k) →
        ∃ us, ts = us ++ rest ∧ Derives level (ls ++ us) e
  | _, _, _, _, _, .done _, _ => fun hd hle _ =>
      ⟨[], rfl, by rw [List.append_nil]; exact hd.loosen hle⟩
  | _, _, _, _, _, @Chains.more _ sign op _ _ _ _ _ _ ho hlevel hr hchain, hunary => by
      intro hd _ hops
      have hnu : op.precedence.next ≤ .unary := by
        rw [Precedence.le_iff, rank_next_operator]
        exact Nat.succ_le_succ (rank_operator op).2
      obtain ⟨rs, rfl, hdr⟩ := hr.derives hnu
      have hbin := Derives.binary (mem_signs_iff.mpr ⟨ho, rfl⟩) (hd.loosen (hops op ho)) hdr
      obtain ⟨vs, rfl, hdv⟩ := hchain.derives hunary hbin hlevel fun op' ho' => by
        have hnot := hr.ends op' ho'
        rw [Precedence.le_iff, rank_next_operator] at hnot
        exact Precedence.le_iff.mpr (by omega)
      exact ⟨sign :: rs ++ vs, by simp, by simpa using hdv⟩

theorem Passes.derives :
    ∀ {ts : List Token} {es : List Expr} {rest : List Token}, Passes ts es rest →
      ∃ us, ts = us ++ rest ∧ DerivesArgs us es
  | _, _, _, .none _ => ⟨[], rfl, .none⟩
  | _, _, _, .one h _ => by
      obtain ⟨us, rfl, hd⟩ := h.derives (by decide)
      exact ⟨us, rfl, .one hd⟩
  | _, _, _, .more h hk hm => by
      obtain ⟨us, rfl, hd⟩ := h.derives (by decide)
      obtain ⟨vs, rfl, hds⟩ := hm.derives
      exact ⟨_, by simp, .more hd hk hds⟩

end

/-! ## Reading leaves no choice -/

mutual

theorem Climbs.unique :
    ∀ {level : Precedence} {ts : List Token} {e : Expr} {rest : List Token},
      Climbs level ts e rest →
      ∀ {e' : Expr} {rest' : List Token}, Climbs level ts e' rest' → e = e' ∧ rest = rest'
  | _, _, _, _, .intro ho hc => by
      intro h'
      cases h' with
      | intro ho' hc' =>
          obtain ⟨rfl, rfl⟩ := ho.unique ho'
          exact hc.unique hc'

theorem Opens.unique :
    ∀ {b : Bool} {ts : List Token} {e : Expr} {rest : List Token}, Opens b ts e rest →
      ∀ {e' : Expr} {rest' : List Token}, Opens b ts e' rest' → e = e' ∧ rest = rest'
  | _, _, _, _, .number h => by
      intro h'
      cases h' with
      | number => exact ⟨rfl, rfl⟩
      | unary hs => simp [h, Token.Kind.opening] at hs
      | name hk | group hk | call hk | assign hk => simp [h] at hk
  | _, _, _, _, .name h he hp => by
      intro h'
      cases h' with
      | name => exact ⟨rfl, rfl⟩
      | call _ ho => exact absurd ho hp
      | assign _ hs => exact absurd ⟨rfl, hs⟩ he
      | unary hs => simp [h, Token.Kind.opening] at hs
      | number hk | group hk => simp [h] at hk
  | _, _, _, _, .group h hi _ => by
      intro h'
      cases h' with
      | group _ hi' _ =>
          obtain ⟨rfl, he⟩ := hi.unique hi'
          cases he
          exact ⟨rfl, rfl⟩
      | unary hs => simp [h, Token.Kind.opening] at hs
      | number hk | name hk | call hk | assign hk => simp [h] at hk
  | _, _, _, _, .call h ho ha _ => by
      intro h'
      cases h' with
      | call _ _ ha' _ =>
          obtain ⟨rfl, he⟩ := ha.unique ha'
          cases he
          exact ⟨rfl, rfl⟩
      | name _ _ hp => exact absurd ho hp
      | assign _ hs => simp [ho] at hs
      | unary hs => simp [h, Token.Kind.opening] at hs
      | number hk | group hk => simp [h] at hk
  | _, _, _, _, .unary h hi => by
      intro h'
      cases h' with
      | unary hs hi' =>
          cases h.symm.trans hs
          obtain ⟨rfl, rfl⟩ := hi.unique hi'
          exact ⟨rfl, rfl⟩
      | number hk | name hk | group hk | call hk | assign hk =>
          simp [hk, Token.Kind.opening] at h
  | _, _, _, _, .assign h hs hi => by
      intro h'
      cases h' with
      | assign _ _ hi' =>
          obtain ⟨rfl, rfl⟩ := hi.unique hi'
          exact ⟨rfl, rfl⟩
      | name _ he _ => exact absurd ⟨rfl, hs⟩ he
      | call _ ho => simp [hs] at ho
      | unary hu => simp [h, Token.Kind.opening] at hu
      | number hk | group hk => simp [h] at hk

theorem Chains.unique :
    ∀ {level : Precedence} {left : Expr} {ts : List Token} {e : Expr} {rest : List Token},
      Chains level left ts e rest →
      ∀ {e' : Expr} {rest' : List Token}, Chains level left ts e' rest' → e = e' ∧ rest = rest'
  | _, _, _, _, _, .done h => by
      intro h'
      cases h' with
      | done => exact ⟨rfl, rfl⟩
      | more ho hle => exact absurd hle (h _ ho)
  | _, _, _, _, _, .more ho hle hr hc => by
      intro h'
      cases h' with
      | done hends => exact absurd hle (hends _ ho)
      | more ho' _ hr' hc' =>
          cases ho.symm.trans ho'
          obtain ⟨rfl, rfl⟩ := hr.unique hr'
          exact hc.unique hc'

theorem Passes.unique :
    ∀ {ts : List Token} {es : List Expr} {rest : List Token}, Passes ts es rest →
      ∀ {es' : List Expr} {rest' : List Token}, Passes ts es' rest' → es = es' ∧ rest = rest'
  | _, _, _, .none h => by
      intro h'
      cases h' with
      | none => exact ⟨rfl, rfl⟩
      | one hc | more hc => simpa [h, Token.Kind.opening] using hc.opening
  | _, _, _, .one hc hk => by
      intro h'
      cases h' with
      | none h => simpa [h, Token.Kind.opening] using hc.opening
      | one hc' _ =>
          obtain ⟨rfl, rfl⟩ := hc.unique hc'
          exact ⟨rfl, rfl⟩
      | more hc' hk' _ =>
          obtain ⟨-, rfl⟩ := hc.unique hc'
          exact absurd hk' hk
  | _, _, _, .more hc hk hm => by
      intro h'
      cases h' with
      | none h => simpa [h, Token.Kind.opening] using hc.opening
      | one hc' hk' =>
          obtain ⟨-, rfl⟩ := hc.unique hc'
          exact absurd hk hk'
      | more hc' _ hm' =>
          obtain ⟨rfl, he⟩ := hc.unique hc'
          cases he
          obtain ⟨hes, rfl⟩ := hm.unique hm'
          cases hes
          exact ⟨rfl, rfl⟩

end

/-- A list of tokens makes up at most one program. -/
theorem DerivesProgram.unique {ts : List Token} {p q : List Statement}
    (hp : DerivesProgram ts p) (hq : DerivesProgram ts q) : p = q := by
  induction hp generalizing q with
  | nil =>
      generalize hts : ([] : List Token) = ts at hq
      cases hq with
      | nil => rfl
      | cons => simp at hts
  | @cons us rest semicolon e p hd hk hrest ih =>
      have h₁ := hd.climbs (continues_of_closing rest (Or.inr (Or.inr hk)))
      generalize hts : us ++ semicolon :: rest = ts at hq h₁
      cases hq with
      | nil => simp at hts
      | @cons _ rest' _ _ _ hd' hk' hrest' =>
          have h₂ := hd'.climbs (continues_of_closing rest' (Or.inr (Or.inr hk')))
          obtain ⟨rfl, he⟩ := h₁.unique h₂
          cases he
          rw [ih hrest']

end Pixelwise.Syntax
