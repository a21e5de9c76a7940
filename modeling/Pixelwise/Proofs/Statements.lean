/-
Statements — the tokens of a source, cut at its semicolons.

`Splits tokens body semicolon rest` says that `body` and `semicolon` are a
statement: what is before them is empty or ends with a semicolon, and there
is none in `body`.  `Cuts tokens body tail` says the same where `tail` opens
with the semicolon, and also that `body` is what is behind the last one.

Main statements: `Cuts.unique`, that a place in a source is in one statement
at most; and `mem_of_inside`, that a problem which is reported inside a
statement is reported at one of its tokens.
-/
import Pixelwise.Proofs.Spans
import Pixelwise.Proofs.Progress

namespace Pixelwise

open Token Syntax

/-- Every token is no semicolon. -/
def Bare (ts : List Token) : Prop :=
  ∀ t ∈ ts, t.kind ≠ .semicolon

/-- Nothing, or tokens that end with a semicolon. -/
def Closed (ts : List Token) : Prop :=
  ∀ t ∈ ts.getLast?, t.kind = .semicolon

/-- Among the tokens, `body` and `semicolon` make up a statement, and `rest`
is what follows it. -/
structure Splits (tokens body : List Token) (semicolon : Token) (rest : List Token) : Prop where
  whole : ∃ before, tokens = before ++ (body ++ semicolon :: rest) ∧ Closed before
  bare : Bare body
  closed : semicolon.kind = .semicolon

/-- Among the tokens, `body` stands between semicolons: before it there is
one or nothing, and `tail` opens with one or is empty. -/
structure Cuts (tokens body tail : List Token) : Prop where
  whole : ∃ before, tokens = before ++ (body ++ tail) ∧ Closed before
  bare : Bare body
  closed : tail = [] ∨ kindAhead tail = .semicolon

theorem Splits.cuts {tokens body rest : List Token} {semicolon : Token}
    (h : Splits tokens body semicolon rest) : Cuts tokens body (semicolon :: rest) :=
  ⟨h.whole, h.bare, Or.inr h.closed⟩

/-- The tokens of a statement and its end: the semicolon, or the end of the
source if there is none. -/
def places (source : String) (body tail : List Token) : List Token :=
  body ++ [tail.headD (endOf source)]

/-- A problem is reported inside a statement. -/
def Inside (body : List Token) (semicolon : Token) (d : Diagnostic) : Prop :=
  (body.headD semicolon).span.start ≤ d.span.start ∧ d.span.stop ≤ semicolon.span.stop

/-! ## Tokens without semicolons -/

theorem Bare.suffix {ts us : List Token} (h : Bare ts) (hs : us <:+ ts) : Bare us :=
  fun t ht => h t (hs.subset ht)

/-- Tokens are cut before their first semicolon, if they have one. -/
theorem exists_bare (ts : List Token) :
    ∃ us tail, ts = us ++ tail ∧ Bare us ∧ (tail = [] ∨ kindAhead tail = .semicolon) := by
  induction ts with
  | nil => exact ⟨[], [], rfl, by simp [Bare], Or.inl rfl⟩
  | cons t ts ih =>
      by_cases hk : t.kind = .semicolon
      · exact ⟨[], t :: ts, rfl, by simp [Bare], Or.inr hk⟩
      · obtain ⟨us, tail, rfl, hbare, htail⟩ := ih
        refine ⟨t :: us, tail, rfl, ?_, htail⟩
        simpa [Bare] using ⟨hk, hbare⟩

/-- Tokens are cut behind their last semicolon, if they have one. -/
theorem exists_closed (ts : List Token) :
    ∃ before us, ts = before ++ us ∧ Closed before ∧ Bare us := by
  induction ts with
  | nil => exact ⟨[], [], rfl, by simp [Closed], by simp [Bare]⟩
  | cons t ts ih =>
      obtain ⟨before, us, rfl, hbefore, hbare⟩ := ih
      cases before with
      | cons b before => exact ⟨t :: b :: before, us, rfl, by simpa [Closed] using hbefore, hbare⟩
      | nil =>
          by_cases hk : t.kind = .semicolon
          · exact ⟨[t], us, rfl, by simpa [Closed] using hk, hbare⟩
          · exact ⟨[], t :: us, rfl, by simp [Closed], by simpa [Bare] using ⟨hk, hbare⟩⟩

theorem Closed.snoc (ts : List Token) {semicolon : Token} (hk : semicolon.kind = .semicolon) :
    Closed (ts ++ [semicolon]) := by
  simpa [Closed] using hk

/-- There is one first semicolon, if there is any. -/
theorem bare_unique {xs ys as bs : List Token} (hxs : Bare xs) (hys : Bare ys)
    (ha : as = [] ∨ kindAhead as = .semicolon) (hb : bs = [] ∨ kindAhead bs = .semicolon)
    (h : xs ++ as = ys ++ bs) : as = bs := by
  have key : ∀ {zs cs us vs : List Token}, Bare (zs ++ cs) → us = cs ++ vs →
      (us = [] ∨ kindAhead us = .semicolon) → us = vs := by
    rintro zs (_ | ⟨c, cs⟩) us vs hbare rfl hus
    · rfl
    · exact absurd (hus.resolve_left (by simp)) (hbare c (by simp))
  rcases List.append_eq_append_iff.mp h with ⟨cs, rfl, hc⟩ | ⟨cs, rfl, hc⟩
  · exact key hys hc ha
  · exact (key hxs hc hb).symm

/-- Tokens without a semicolon do not reach beyond the last one. -/
theorem suffix_of_bare {before xs ys us : List Token} (hbefore : Closed before) (hys : Bare ys)
    (h : before ++ us = xs ++ ys) : ys <:+ us := by
  rcases List.append_eq_append_iff.mp h with ⟨cs, rfl, rfl⟩ | ⟨cs, rfl, rfl⟩
  · exact List.suffix_append cs ys
  · cases hc : cs.getLast? with
    | none =>
        rw [List.getLast?_eq_none_iff.mp hc]
        exact List.suffix_refl us
    | some t =>
        have hmem : t ∈ cs := List.mem_of_getLast? hc
        have hclosed : t.kind = .semicolon := hbefore t (by simp [List.getLast?_append, hc])
        exact absurd hclosed (hys t (List.mem_append_left _ hmem))

/-! ## Places in a source -/

section

variable {source : String} {body tail rest : List Token} {semicolon : Token}

/-- A place of a statement is one of its tokens, and from there on the
statement goes on to its end; or it is the end of the source. -/
theorem exists_from {t : Token} (hbare : Bare body) (ht : t ∈ places source body tail) :
    (∃ front us ts, body = front ++ us ∧ Bare us ∧ us ++ tail = t :: ts) ∨
      tail = [] ∧ t = endOf source := by
  rcases List.mem_append.mp ht with ht | ht
  · obtain ⟨front, us, rfl⟩ := List.append_of_mem ht
    exact Or.inl ⟨front, t :: us, us ++ tail, rfl, hbare.suffix (List.suffix_append front _), rfl⟩
  · obtain rfl := List.mem_singleton.mp ht
    cases tail with
    | nil => exact Or.inr ⟨rfl, rfl⟩
    | cons semicolon rest => exact Or.inl ⟨body, [], rest, by simp, by simp [Bare], rfl⟩

/-- No token stands at the end of the source. -/
theorem span_ne_endOf {t : Token} (ht : t ∈ scan source) : t.span ≠ (endOf source).span := by
  intro hspan
  have := nonempty_of_mem_scan ht
  have := stop_le_of_mem_scan ht
  simp only [hspan, endOf] at *
  omega

/-- Statements that share a place have the same end. -/
theorem tail_unique (h : Cuts (scan source) body tail) {before us after : List Token}
    {t t' : Token} (hsource : scan source = before ++ (us ++ after)) (hus : Bare us)
    (hafter : after = [] ∨ kindAhead after = .semicolon) (ht : t ∈ places source body tail)
    (ht' : t' ∈ places source us after) (hspan : t.span = t'.span) : after = tail := by
  obtain ⟨front, hwhole, -⟩ := h.whole
  rcases exists_from h.bare ht with ⟨xs, ys, ts, rfl, hys, hts⟩ | ⟨rfl, rfl⟩
  · rw [List.append_assoc, hts, ← List.append_assoc] at hwhole
    rcases exists_from hus ht' with ⟨xs', ys', ts', rfl, hys', hts'⟩ | ⟨rfl, rfl⟩
    · rw [List.append_assoc, hts', ← List.append_assoc] at hsource
      obtain ⟨-, rfl, rfl⟩ := split_unique hwhole hsource hspan
      exact bare_unique hys' hys hafter h.closed (hts'.trans hts.symm)
    · exact absurd hspan (span_ne_endOf (by simp [hwhole]))
  · rcases exists_from hus ht' with ⟨xs', ys', ts', rfl, -, hts'⟩ | ⟨rfl, -⟩
    · refine absurd hspan.symm (span_ne_endOf ?_)
      rw [hsource, List.append_assoc, hts']
      simp
    · rfl

/-- Statements that share a place are the same. -/
theorem Cuts.unique (h : Cuts (scan source) body tail) {us after : List Token} {t t' : Token}
    (h' : Cuts (scan source) us after) (ht : t ∈ places source body tail)
    (ht' : t' ∈ places source us after) (hspan : t.span = t'.span) :
    us = body ∧ after = tail := by
  obtain ⟨before, hwhole, hbefore⟩ := h.whole
  obtain ⟨front, hsource, hfront⟩ := h'.whole
  obtain rfl := tail_unique h hsource h'.bare h'.closed ht ht' hspan
  rw [hwhole, ← List.append_assoc, ← List.append_assoc] at hsource
  have heq := List.append_cancel_right hsource
  have hle := suffix_of_bare hbefore h'.bare heq
  have hge := suffix_of_bare hfront h.bare heq.symm
  exact ⟨hle.eq_of_length (Nat.le_antisymm hle.length_le hge.length_le), rfl⟩

/-- Tokens behind a semicolon begin a statement, and its first place is that
of the first token. -/
theorem exists_cuts {before ts : List Token} (hsource : scan source = before ++ ts)
    (hbefore : Closed before) :
    ∃ body tail, ts = body ++ tail ∧ Cuts (scan source) body tail ∧
      ∀ t ∈ ts.head?, t ∈ places source body tail := by
  obtain ⟨body, tail, rfl, hbare, htail⟩ := exists_bare ts
  refine ⟨body, tail, rfl, ⟨⟨before, hsource, hbefore⟩, hbare, htail⟩, ?_⟩
  cases body with
  | nil => cases tail <;> simp [places]
  | cons b body => simp [places]

/-- What is reported at a token of a statement is reported inside it. -/
theorem inside_of_mem (h : Splits (scan source) body semicolon rest) {t : Token}
    (ht : t ∈ body ++ [semicolon]) {d : Diagnostic} (hspan : d.span = t.span) :
    Inside body semicolon d := by
  obtain ⟨front, hwhole, -⟩ := h.whole
  rw [Inside, hspan]
  constructor
  · cases body with
    | nil =>
        obtain rfl := List.mem_singleton.mp ht
        exact Nat.le_refl _
    | cons b bs =>
        rcases List.mem_cons.mp ht with rfl | ht
        · exact Nat.le_refl _
        · have hsplit : scan source = (front ++ [b]) ++ (bs ++ [semicolon] ++ rest) := by
            simpa using hwhole
          have := stop_le_start hsplit (t := b) (by simp) (List.mem_append_left rest ht)
          have := nonempty_of_mem_scan (show b ∈ scan source by simp [hwhole])
          simp only [List.headD_cons]
          omega
  · rcases List.mem_append.mp ht with ht | ht
    · have hsplit : scan source = (front ++ body) ++ semicolon :: rest := by simpa using hwhole
      have := stop_le_start hsplit (List.mem_append_right front ht) List.mem_cons_self
      have := nonempty_of_mem_scan (show semicolon ∈ scan source by simp [hwhole])
      omega
    · obtain rfl := List.mem_singleton.mp ht
      exact Nat.le_refl _

/-- A place inside a statement is that of one of its tokens. -/
theorem mem_of_inside (h : Splits (scan source) body semicolon rest) {t : Token}
    (ht : t ∈ scan source) {d : Diagnostic} (hspan : d.span = t.span)
    (hd : Inside body semicolon d) : t ∈ body ++ [semicolon] := by
  obtain ⟨front, hwhole, -⟩ := h.whole
  rw [Inside, hspan] at hd
  have hne := nonempty_of_mem_scan ht
  rw [hwhole, List.mem_append] at ht
  rcases ht with ht | ht
  · have hfirst : body.headD semicolon ∈ body ++ semicolon :: rest := by
      cases body <;> simp
    have := stop_le_start hwhole ht hfirst
    omega
  · have hcut : body ++ semicolon :: rest = (body ++ [semicolon]) ++ rest := by simp
    rw [hcut] at ht hwhole
    rcases List.mem_append.mp ht with ht | ht
    · exact ht
    · have hsplit : scan source = (front ++ (body ++ [semicolon])) ++ rest := by
        simpa using hwhole
      have := stop_le_start hsplit (t := semicolon) (by simp) ht
      omega

/-- A place inside a statement is of that statement. -/
theorem Splits.home (h : Splits (scan source) body semicolon rest) {us after : List Token}
    (h' : Cuts (scan source) us after) (hne : us ++ after ≠ []) {d : Diagnostic}
    (hplace : ∃ t ∈ places source us after, d.span = t.span) (hd : Inside body semicolon d) :
    us = body ∧ after = semicolon :: rest := by
  obtain ⟨t, ht, hspan⟩ := hplace
  obtain ⟨before, hsource, -⟩ := h'.whole
  rcases exists_from h'.bare ht with ⟨front, us', ts, rfl, -, hts⟩ | ⟨rfl, rfl⟩
  · have hmem : t ∈ scan source := by
      rw [hsource, List.append_assoc, hts]
      simp
    exact h.cuts.unique h' (mem_of_inside h hmem hspan hd) ht rfl
  · rw [List.append_nil] at hsource hne
    obtain ⟨front, hwhole, -⟩ := h.whole
    have hsemicolon : semicolon ∈ before := by
      have : semicolon ∈ before ++ us := by simp [← hsource, hwhole]
      exact (List.mem_append.mp this).resolve_right fun hmem => h'.bare _ hmem h.closed
    obtain ⟨u, us, rfl⟩ := List.exists_cons_of_ne_nil hne
    have hu : u ∈ scan source := by simp [hsource]
    have := stop_le_start hsource hsemicolon (List.mem_cons_self (a := u) (l := us))
    have := nonempty_of_mem_scan hu
    have := stop_le_of_mem_scan hu
    have hstop := hd.2
    rw [hspan] at hstop
    simp only [endOf] at hstop
    omega

end

end Pixelwise
