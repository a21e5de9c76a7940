/-
Ordering — problems are listed statement by statement.

Every diagnostic is of one statement, and how many semicolons stand before it
is settled by how many stand behind the statement
(`semicolonsBefore_add`).  A leg of the compilation begins where the last one
ended, or later, and does not end behind a statement that it speaks of; so a
later leg speaks of no statement in front of it (`Leg.tail_length_le`).  In
one leg only the reading of a statement has more to say than one problem, and
what comes last is of this statement or of the next.

Main statement: `pairwise_semicolonsBefore`.
-/
import Pixelwise.Proofs.Cascading

namespace Pixelwise

open Token Compiler

/-! ## The semicolons before a problem -/

/-- The token is a semicolon. -/
def Token.isSemicolon (t : Token) : Bool :=
  t.kind = .semicolon

/-- How many semicolons of the source begin before the place of a problem. -/
def semicolonsBefore (source : String) (d : Diagnostic) : Nat :=
  (scan source).countP fun t => t.isSemicolon && t.span.start < d.span.start

theorem countP_bare {ts : List Token} (h : Bare ts) : ts.countP isSemicolon = 0 := by
  rw [List.countP_eq_zero]
  intro t ht
  simpa [isSemicolon] using h t ht

/-- A source ends with a statement and what is behind it. -/
theorem Cuts.suffix {tokens body tail : List Token} (h : Cuts tokens body tail) :
    body ++ tail <:+ tokens := by
  obtain ⟨before, hsource, -⟩ := h.whole
  exact ⟨before, hsource.symm⟩

section

variable {source : String} {body tail : List Token} {d e : Diagnostic}

/-- The tokens in front of a statement begin before its places. -/
theorem start_lt_of_mem_before {before : List Token} {t u : Token}
    (hsource : scan source = before ++ (body ++ tail)) (ht : t ∈ places source body tail)
    (hu : u ∈ before) : u.span.start < t.span.start := by
  have hmem : u ∈ scan source := by simp [hsource, hu]
  have hne := nonempty_of_mem_scan hmem
  suffices hle : u.span.stop ≤ t.span.start from Nat.lt_of_lt_of_le hne hle
  rcases List.mem_append.mp ht with ht | ht
  · exact stop_le_start hsource hu (List.mem_append_left tail ht)
  · obtain rfl := List.mem_singleton.mp ht
    cases tail with
    | nil => exact stop_le_of_mem_scan hmem
    | cons semicolon rest =>
        exact stop_le_start hsource hu (List.mem_append_right body List.mem_cons_self)

/-- The tokens behind a statement begin at its last place or later. -/
theorem start_le_of_mem_tail {before : List Token} {t u : Token}
    (hsource : scan source = before ++ (body ++ tail)) (ht : t ∈ places source body tail)
    (hu : u ∈ tail) : t.span.start ≤ u.span.start := by
  rcases List.mem_append.mp ht with ht | ht
  · have hmem : t ∈ scan source := by simp [hsource, ht]
    have hsplit : scan source = (before ++ body) ++ tail := by simp [hsource]
    have hle := stop_le_start hsplit (List.mem_append_right before ht) hu
    exact Nat.le_trans (Nat.le_of_lt (nonempty_of_mem_scan hmem)) hle
  · obtain rfl := List.mem_singleton.mp ht
    cases tail with
    | nil => cases hu
    | cons semicolon rest =>
        rcases List.mem_cons.mp hu with rfl | hu
        · exact Nat.le_refl _
        · have hsplit : scan source = (before ++ (body ++ [semicolon])) ++ rest := by
            simp [hsource]
          have hmem : semicolon ∈ scan source := by simp [hsource]
          have hle := stop_le_start hsplit (t := semicolon) (by simp) hu
          exact Nat.le_trans (Nat.le_of_lt (nonempty_of_mem_scan hmem)) hle

/-- The semicolons before a problem are those that do not stand behind its
statement. -/
theorem semicolonsBefore_add (h : Cuts (scan source) body tail)
    (hplace : Belongs source body tail d) :
    semicolonsBefore source d + tail.countP isSemicolon = (scan source).countP isSemicolon := by
  obtain ⟨before, hsource, -⟩ := h.whole
  obtain ⟨t, ht, hspan⟩ := hplace
  have hbefore : before.countP (fun u => u.isSemicolon && u.span.start < d.span.start) =
      before.countP isSemicolon := by
    refine List.countP_congr fun u hu => ?_
    simp [hspan, start_lt_of_mem_before hsource ht hu]
  have hbody : body.countP (fun u => u.isSemicolon && u.span.start < d.span.start) = 0 := by
    refine List.countP_eq_zero.mpr fun u hu => ?_
    simp [isSemicolon, h.bare u hu]
  have htail : tail.countP (fun u => u.isSemicolon && u.span.start < d.span.start) = 0 := by
    refine List.countP_eq_zero.mpr fun u hu => ?_
    have hle := start_le_of_mem_tail hsource ht hu
    simp [hspan, Nat.not_lt.mpr hle]
  rw [semicolonsBefore, hsource]
  simp only [List.countP_append, hbefore, hbody, htail, countP_bare h.bare]
  omega

/-- The statement with less behind it is the later one. -/
theorem semicolonsBefore_le {body' tail' : List Token} (h : Cuts (scan source) body tail)
    (h' : Cuts (scan source) body' tail') (hd : Belongs source body tail d)
    (he : Belongs source body' tail' e) (hle : tail'.length ≤ tail.length) :
    semicolonsBefore source d ≤ semicolonsBefore source e := by
  have htail : tail <:+ scan source := (List.suffix_append body tail).trans h.suffix
  have htail' : tail' <:+ scan source := (List.suffix_append body' tail').trans h'.suffix
  have htails : tail' <:+ tail := List.suffix_of_suffix_length_le htail' htail hle
  have hcount := htails.sublist.countP_le (p := isSemicolon)
  have hdcount := semicolonsBefore_add h hd
  have hecount := semicolonsBefore_add h' he
  omega

end

/-! ## Legs and the statements that they speak of -/

namespace Compiler

variable {inputs : List String} {source : String} {body tail : List Token} {l l' : Leg}
  {d e : Diagnostic}

/-- What a leg reports is of some statement. -/
theorem Leg.home (hl : l ∈ legs inputs source) (hd : d ∈ l.reports inputs source) :
    ∃ body tail, Cuts (scan source) body tail ∧ Belongs source body tail d := by
  rcases mem_legs_iff.mp hl with rfl | ⟨s, hs, hne, rfl | rfl⟩
  · obtain ⟨body, tail, hcuts, -, hplace⟩ :=
      stray_home (List.nil_append _).symm (by simp [Closed]) hd
    exact ⟨body, tail, hcuts, hplace⟩
  · obtain ⟨body, tail, hcuts, -, hplace, -⟩ := statement_home hs hne (mem_reading_iff.mp hd)
    exact ⟨body, tail, hcuts, hplace⟩
  · obtain ⟨body, tail, hcuts, -, hplace, -⟩ := skip_home hs (mem_recovery_iff.mp hd).2
    exact ⟨body, tail, hcuts, hplace⟩

/-- A leg begins before the end of a statement that it speaks of, and ends
behind its beginning. -/
theorem Leg.around (h : Cuts (scan source) body tail) (hl : l ∈ legs inputs source)
    (hd : d ∈ l.reports inputs source) (hplace : Belongs source body tail d) :
    tail.length ≤ l.before inputs source ∧ l.after inputs source ≤ (body ++ tail).length := by
  have hclear := (clear_suffix body).length_le
  have hall : (body ++ tail).length = body.length + tail.length := List.length_append
  have hcleared : (clear body ++ tail).length = (clear body).length + tail.length :=
    List.length_append
  rcases l.speaks h hl hd hplace with ⟨-, hbegins, hends⟩ | ⟨-, hbegins, hends⟩ |
    ⟨-, hbegins, hends⟩
  · omega
  · omega
  · omega

/-- A later leg speaks of the same statement or of one behind it. -/
theorem Leg.tail_length_le {body' tail' : List Token} (h : Cuts (scan source) body tail)
    (h' : Cuts (scan source) body' tail') (hl : l ∈ legs inputs source)
    (hl' : l' ∈ legs inputs source) (hlater : l'.before inputs source ≤ l.after inputs source)
    (hd : d ∈ l.reports inputs source) (hdplace : Belongs source body tail d)
    (he : e ∈ l'.reports inputs source) (heplace : Belongs source body' tail' e) :
    tail'.length ≤ tail.length := by
  have hends := (Leg.around h hl hd hdplace).2
  have hbegins := (Leg.around h' hl' he heplace).1
  have htail' : tail' <:+ scan source := (List.suffix_append body' tail').trans h'.suffix
  have hsuffix : tail' <:+ body ++ tail :=
    List.suffix_of_suffix_length_le htail' h.suffix (by omega)
  obtain ⟨front, hfront⟩ := hsuffix
  -- Where `tail'` begins there is a semicolon, and there is none in `body`.
  rcases List.append_eq_append_iff.mp hfront with ⟨us, rfl, rfl⟩ | ⟨us, -, rfl⟩
  · cases us with
    | nil => exact Nat.le_refl _
    | cons u us =>
        have hsemicolon : u.kind = .semicolon := h'.closed.resolve_left (by simp)
        exact absurd hsemicolon (h.bare u (by simp))
  · simp

/-- In one leg no problem is of a statement in front of an earlier one's. -/
theorem Leg.reports_ordered (hl : l ∈ legs inputs source) :
    (l.reports inputs source).Pairwise fun d e =>
      semicolonsBefore source d ≤ semicolonsBefore source e := by
  refine l.reports_orderly.imp_of_mem ?_
  intro d e hd he hname
  have hstray : ∀ {ts : List Token}, d ∉ strayAhead ts := by
    intro ts hmem
    obtain ⟨t, rest, c, -, -, rfl⟩ := mem_strayAhead_iff.mp hmem
    cases hname
  rcases mem_legs_iff.mp hl with rfl | ⟨s, hs, hne, rfl | rfl⟩
  · exact absurd hd hstray
  · obtain ⟨body, tail, hcuts, -, hdplace, hdspeaks⟩ :=
      statement_home hs hne (mem_reading_iff.mp hd)
    obtain ⟨body', tail', hcuts', -, heplace, hespeaks⟩ :=
      statement_home hs hne (mem_reading_iff.mp he)
    have htakes : Takes inputs s body tail := hdspeaks.resolve_left fun h => hstray h.2
    have hbare : Bare (clear body) := hcuts.bare.suffix (clear_suffix body)
    refine semicolonsBefore_le hcuts hcuts' hdplace heplace ?_
    rcases hespeaks with ⟨hreaches, -⟩ | htakes'
    · obtain ⟨us, semicolon, hp, hus, hk, -⟩ := hreaches.place
      have htail : tail = semicolon :: (body' ++ tail') :=
        bare_unique hbare hus hcuts.closed (Or.inr hk) (htakes.place.symm.trans hp)
      rw [htail, List.length_cons, List.length_append]
      omega
    · have hbare' : Bare (clear body') := hcuts'.bare.suffix (clear_suffix body')
      have htail : tail = tail' := bare_unique hbare hbare' hcuts.closed hcuts'.closed
        (htakes.place.symm.trans htakes'.place)
      exact Nat.le_of_eq (congrArg List.length htail.symm)
  · obtain ⟨c, hc⟩ := skip_unexpected (mem_recovery_iff.mp hd).2
    rw [hc] at hname
    cases hname

end Compiler

/-- Problems are listed in the order of their statements. -/
theorem pairwise_semicolonsBefore (inputs : List String) (source : String) :
    (problems inputs source).Pairwise fun d e =>
      semicolonsBefore source d ≤ semicolonsBefore source e := by
  rw [problems_eq, finish_told, List.pairwise_flatMap]
  refine ⟨fun l hl => Leg.reports_ordered hl, legs_pairwise.imp_of_mem ?_⟩
  intro l l' hl hl' hlater d hd e he
  obtain ⟨body, tail, hcuts, hdplace⟩ := Leg.home hl hd
  obtain ⟨body', tail', hcuts', heplace⟩ := Leg.home hl' he
  exact semicolonsBefore_le hcuts hcuts' hdplace heplace
    (Leg.tail_length_le hcuts hcuts' hl hl' hlater hd hdplace he heplace)

end Pixelwise
