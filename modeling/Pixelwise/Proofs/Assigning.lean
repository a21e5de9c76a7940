/-
Assigning — the names that a program assigns, told from its tokens alone.

In a program an assignment sign stands behind the name that is assigned and
nowhere else, so no tree is needed to find the names.

Main statement: `mem_assignedAfter_program`, that a program with nothing
wrong assigns the names before its assignment signs.
-/
import Pixelwise.Proofs.Language

namespace Pixelwise.Syntax

/-- The lexemes of the tokens that have an assignment sign right behind
them. -/
def assignees : List Token → List String
  | t :: sign :: rest =>
    if sign.kind = .equal then t.lexeme :: assignees (sign :: rest)
    else assignees (sign :: rest)
  | _ => []

/-! ## Tokens in front of others -/

theorem assignees_cons_of_ne {ts : List Token} (h : kindAhead ts ≠ .equal) (t : Token) :
    assignees (t :: ts) = assignees ts := by
  cases ts with
  | nil => rfl
  | cons sign rest =>
      have hsign : sign.kind ≠ .equal := h
      rw [assignees, if_neg hsign]

theorem assignees_append {ys : List Token} (h : kindAhead ys ≠ .equal) (xs : List Token) :
    assignees (xs ++ ys) = assignees xs ++ assignees ys := by
  induction xs with
  | nil => rfl
  | cons t xs ih =>
      cases xs with
      | nil => exact assignees_cons_of_ne h t
      | cons sign rest =>
          simp only [List.cons_append, assignees] at ih ⊢
          split
          · rw [ih, List.cons_append]
          · exact ih

/-- Expressions open with an operand. -/
theorem Derives.kindAhead_ne :
    ∀ {level : Precedence} {ts : List Token} {e : Expr}, Derives level ts e →
      ∀ rest, kindAhead (ts ++ rest) ≠ .equal
  | _, _, _, .number h, _ | _, _, _, .name h, _ | _, _, _, .group h _ _, _
  | _, _, _, .call h _ _ _, _ | _, _, _, .assign h _ _, _ => by simp [h]
  | _, _, _, .unary hs _, _ => by
      have ho := mem_unarySigns_iff.mp hs
      intro h
      rw [List.cons_append, kindAhead_cons] at h
      simp [h, Token.Kind.opening] at ho
  | _, _, _, .binary _ hl _, rest => by
      rw [List.append_assoc]
      exact hl.kindAhead_ne _
  | _, _, _, .tighter hd, rest => hd.kindAhead_ne rest

theorem DerivesArgs.kindAhead_ne {ts : List Token} {es : List Expr} (h : DerivesArgs ts es)
    {rest : List Token} (hrest : kindAhead rest ≠ .equal) : kindAhead (ts ++ rest) ≠ .equal := by
  cases h with
  | none => exact hrest
  | one hd => exact hd.kindAhead_ne rest
  | more hd _ _ =>
      rw [List.append_assoc]
      exact hd.kindAhead_ne _

theorem DerivesProgram.kindAhead_ne {ts : List Token} {program : List Statement}
    (h : DerivesProgram ts program) : kindAhead ts ≠ .equal := by
  cases h with
  | nil => exact fun h => by cases h
  | cons hd _ _ => exact hd.kindAhead_ne _

theorem Derives.assignees_cons {level : Precedence} {ts : List Token} {e : Expr}
    (h : Derives level ts e) (t : Token) : assignees (t :: ts) = assignees ts := by
  have hahead := h.kindAhead_ne []
  rw [List.append_nil] at hahead
  exact assignees_cons_of_ne hahead t

/-! ## The names that are assigned -/

/-- A value for the name ends among the mentions. -/
def Assigns (ms : List Mention) (name : String) : Prop :=
  ∃ t, .assigned t ∈ ms ∧ t.lexeme = name

theorem assigns_append {xs ys : List Mention} {name : String} :
    Assigns (xs ++ ys) name ↔ Assigns xs name ∨ Assigns ys name := by
  simp only [Assigns, List.mem_append, or_and_right, exists_or]

theorem assigns_cons {m : Mention} {ms : List Mention} {name : String} :
    Assigns (m :: ms) name ↔ (∃ t, .assigned t = m ∧ t.lexeme = name) ∨ Assigns ms name := by
  simp only [Assigns, List.mem_cons, or_and_right, exists_or]

theorem not_assigns_nil {name : String} : ¬ Assigns [] name := by
  simp [Assigns]

mutual

theorem Derives.mem_assignees :
    ∀ {level : Precedence} {ts : List Token} {e : Expr}, Derives level ts e →
      ∀ name, name ∈ assignees ts ↔ Assigns e.mentions name
  | _, _, _, .number _, _ | _, _, _, .name _, _ => by simp [assignees, Assigns, Expr.mentions]
  | _, _, _, @Derives.group opening closing ts inner _ hi hc, name => by
      have hclosing : kindAhead [closing] ≠ .equal := by simp [hc]
      rw [List.cons_append, assignees_cons_of_ne (hi.kindAhead_ne _), assignees_append hclosing,
        Expr.mentions, ← hi.mem_assignees name]
      simp [assignees]
  | _, _, _, @Derives.call callee opening closing ts args _ ho ha hc, name => by
      have hclosing : kindAhead [closing] ≠ .equal := by simp [hc]
      have hargs : kindAhead (ts ++ [closing]) ≠ .equal := ha.kindAhead_ne hclosing
      have hopening : kindAhead (opening :: (ts ++ [closing])) ≠ .equal := by simp [ho]
      rw [List.cons_append, List.cons_append, assignees_cons_of_ne hopening,
        assignees_cons_of_ne hargs, assignees_append hclosing, Expr.mentions, assigns_append,
        assigns_cons, ← ha.mem_assignees name]
      simp [assignees, assigns_cons, not_assigns_nil]
  | _, _, _, .unary _ hd, name => by
      rw [hd.assignees_cons]
      exact hd.mem_assignees name
  | _, _, _, @Derives.binary level sign op ls rs left right hs hl hr, name => by
      have hsign : kindAhead (sign :: rs) ≠ .equal := by
        have ho := (mem_signs_iff.mp hs).1
        intro h
        rw [kindAhead_cons] at h
        simp [h, Token.Kind.operator] at ho
      rw [assignees_append hsign, hr.assignees_cons, List.mem_append, Expr.mentions,
        assigns_append, hl.mem_assignees name, hr.mem_assignees name]
  | _, _, _, .tighter hd, name => hd.mem_assignees name
  | _, _, _, @Derives.assign target sign ts value _ hs hd, name => by
      rw [assignees, if_pos hs, hd.assignees_cons, List.mem_cons, hd.mem_assignees name,
        Expr.mentions, assigns_append, assigns_cons, assigns_cons]
      simp [not_assigns_nil, or_comm, eq_comm]

theorem DerivesArgs.mem_assignees :
    ∀ {ts : List Token} {es : List Expr}, DerivesArgs ts es →
      ∀ name, name ∈ assignees ts ↔ Assigns (mentionsAll es) name
  | _, _, .none, _ => by simp [assignees, not_assigns_nil, mentionsAll]
  | _, _, .one hd, name => by
      rw [mentionsAll, mentionsAll, List.append_nil]
      exact hd.mem_assignees name
  | _, _, @DerivesArgs.more ts rest comma e f es hd hk ha, name => by
      have hcomma : kindAhead (comma :: rest) ≠ .equal := by simp [hk]
      have hahead : kindAhead (rest ++ []) ≠ .equal := ha.kindAhead_ne (by simp [kindAhead])
      rw [List.append_nil] at hahead
      rw [assignees_append hcomma, assignees_cons_of_ne hahead, List.mem_append, mentionsAll,
        assigns_append, hd.mem_assignees name, ha.mem_assignees name]

end

/-- The names that a program assigns are those before its assignment signs. -/
theorem DerivesProgram.mem_assignees {ts : List Token} {program : List Statement}
    (h : DerivesProgram ts program) (name : String) :
    name ∈ assignees ts ↔ Assigns (mentions program) name := by
  induction h with
  | nil => simp [assignees, not_assigns_nil, mentions]
  | @cons ts rest semicolon e program hd hk hrest ih =>
      have hsemicolon : kindAhead (semicolon :: rest) ≠ .equal := by simp [hk]
      rw [assignees_append hsemicolon, assignees_cons_of_ne hrest.kindAhead_ne, List.mem_append,
        ih, hd.mem_assignees name, ← assigns_append]
      rfl

/-! ## What is assigned may be -/

mutual

/-- A value ends for a name where an assignment to it began. -/
theorem target_of_assigned :
    ∀ {e : Expr} {t : Token}, .assigned t ∈ e.mentions → .target t ∈ e.mentions
  | .number _, _, h | .name _, _, h => by simp [Expr.mentions] at h
  | .group inner _, t, h => target_of_assigned (e := inner) h
  | .call callee args _, t, h => by
      have hargs : .assigned t ∈ mentionsAll args := by simpa [Expr.mentions] using h
      simp [Expr.mentions, target_of_assignedAll hargs]
  | .unary _ operand, t, h => target_of_assigned (e := operand) h
  | .binary _ left right, t, h => by
      rw [Expr.mentions, List.mem_append] at h ⊢
      exact h.imp target_of_assigned target_of_assigned
  | .assign target value, t, h => by
      simp only [Expr.mentions, List.cons_append, List.mem_cons, List.mem_append,
        List.not_mem_nil, or_false, reduceCtorEq, false_or, Mention.assigned.injEq] at h
      rcases h with h | rfl
      · simp [Expr.mentions, target_of_assigned h]
      · simp [Expr.mentions]

theorem target_of_assignedAll :
    ∀ {es : List Expr} {t : Token}, .assigned t ∈ mentionsAll es → .target t ∈ mentionsAll es
  | [], _, h => by simp [mentionsAll] at h
  | e :: es, t, h => by
      rw [mentionsAll, List.mem_append] at h ⊢
      exact h.imp target_of_assigned target_of_assignedAll

end

/-- A program with nothing wrong assigns the names before its assignment
signs, and all of them can be read afterwards. -/
theorem mem_assignedAfter_program {inputs : List String} {ts : List Token}
    {program : List Statement} (h : DerivesProgram ts program)
    (hnames : diagnose inputs [] (mentions program) = []) (name : String) :
    name ∈ assignedAfter inputs [] (mentions program) ↔ name ∈ assignees ts := by
  rw [h.mem_assignees, mem_assignedAfter]
  constructor
  · rintro (h | ⟨t, ht, hname, -⟩)
    · cases h
    · exact ⟨t, ht, hname⟩
  · rintro ⟨t, ht, hname⟩
    obtain ⟨p, hp, hmention⟩ := List.mem_flatMap.mp ht
    have htarget : .target t ∈ mentions program :=
      List.mem_flatMap.mpr ⟨p, hp, target_of_assigned hmention⟩
    obtain ⟨before, after, hsplit⟩ := List.append_of_mem htarget
    obtain ⟨hlibrary, hinput⟩ := diagnose_eq_nil_iff.mp hnames before _ after hsplit
    exact Or.inr ⟨t, ht, hname, hlibrary, hinput⟩

end Pixelwise.Syntax
