/-
# Sylar.Log.Pattern — the language of log patterns.

The grammar is the reverse of the parser: a `Segment` is a run of literal characters or a directive,
`source` is how it is written, and `Written` says which sequences of them stand for a pattern.  A
directive without a format must not be followed by what the scanner would take for a part of it.

`LogFormatter` reads exactly what is written (`pattern_read`): it reports no error iff the pattern is
the source of such a sequence, and then its items are those of the sequence, in order.  Two adjacent `%`
are left out there: the scanner takes the first for a literal and starts a directive at the second.

`Valid` is the same grammar with them, where a run of literal characters may end in `%` if a directive
comes behind it, and it is all the scanner accepts.  The two directions are `scan_valid`, by induction on
the sequence, and `valid_of_scan`, by induction on the length of the pattern, a directive at a time
(`accepted_iff`).
-/
import Sylar.Log.Formatter
import Mathlib.Data.List.Infix

namespace Sylar.Log

/-! ## The grammar -/

/-- The letters of `s_format_items`. -/
def letters : List Char := ['m', 'p', 'r', 'c', 't', 'n', 'd', 'f', 'l', 'T', 'F', 'N']

/-- A piece of a pattern: literal characters, or a directive with or without a format. -/
inductive Segment
  | run (text : List Char)
  | directive (x : Char) (format : Option (List Char))
  deriving DecidableEq, Repr

namespace Segment

/-- How a piece is written. -/
def source : Segment → List Char
  | .run text => text
  | .directive x none => ['%', x]
  | .directive x (some f) => '%' :: x :: '{' :: (f ++ ['}'])

def isRun : Segment → Bool
  | .run _ => true
  | .directive .. => false

/-- The element of `vec` for a piece. -/
def token : Segment → Token
  | .run text => ⟨text, [], 0⟩
  | .directive x format => ⟨[x], format.getD [], 1⟩

/-- The item is the one of the piece: the text, or what `s_format_items` makes of letter and format. -/
def Makes : Segment → FormatItem → Prop
  | .run text, item => item = .string (String.ofList text)
  | .directive x format, item =>
      s_format_items [x] (String.ofList (format.getD [])) = some item

end Segment

/-- The pattern a sequence of pieces stands for. -/
def sourceOf (segs : List Segment) : List Char := segs.flatMap Segment.source

/-- What the scanner takes for a part of a directive. -/
def continues (c : Char) : Bool := isalpha c || c == '{' || c == '}'

/-- What follows a directive without a format is not a part of it. -/
def Bounded (cs : List Char) : Prop := ∀ c ∈ cs.head?, continues c = false

/-- A sequence of pieces in which each directive is known and ends where it should, and the runs of
literal characters are as long as can be. -/
def Written : List Segment → Prop
  | [] => True
  | .run text :: segs =>
      text ≠ [] ∧ '%' ∉ text ∧ (∀ seg ∈ segs.head?, seg.isRun = false) ∧ Written segs
  | .directive x none :: segs => x ∈ letters ∧ Bounded (sourceOf segs) ∧ Written segs
  | .directive x (some f) :: segs => x ∈ letters ∧ '}' ∉ f ∧ Written segs

/-- Where a directive is closed: by its brace, or by what comes behind it. -/
def Closes : Option (List Char) → List Char → Prop
  | none, rest => Bounded rest
  | some f, _ => '}' ∉ f

/-- The literal characters have no `%` but at their end, and there only if something comes behind. -/
def Ends (text : List Char) (segs : List Segment) : Prop :=
  ∃ u j, text = u ++ List.replicate j '%' ∧ '%' ∉ u ∧ (j = 0 ∨ segs ≠ [])

/-- `Written`, with runs that may end in `%`. -/
def Valid : List Segment → Prop
  | [] => True
  | .run text :: segs =>
      text ≠ [] ∧ Ends text segs ∧ (∀ seg ∈ segs.head?, seg.isRun = false) ∧ Valid segs
  | .directive x format :: segs => x ∈ letters ∧ Closes format (sourceOf segs) ∧ Valid segs

theorem sourceOf_cons (seg : Segment) (segs : List Segment) :
    sourceOf (seg :: segs) = seg.source ++ sourceOf segs := rfl

/-- `s_format_items` knows the letters and nothing else. -/
theorem s_format_items_isSome (str : List Char) (fmt : String) :
    (s_format_items str fmt).isSome = true ↔ ∃ x ∈ letters, str = [x] := by
  constructor
  · intro h
    unfold s_format_items at h
    split at h
    all_goals first | exact ⟨_, by decide, rfl⟩ | cases h
  · rintro ⟨x, hx, rfl⟩
    simp only [letters, List.mem_cons, List.not_mem_nil, or_false] at hx
    rcases hx with rfl | rfl | rfl | rfl | rfl | rfl | rfl | rfl | rfl | rfl | rfl | rfl
    all_goals rfl

theorem letter_continues : ∀ x ∈ letters, isalpha x = true ∧ x ≠ '%' ∧ x ≠ '{' := by
  have hall : letters.all (fun x => decide (isalpha x = true ∧ x ≠ '%' ∧ x ≠ '{')) = true := by
    decide
  intro x hx
  exact of_decide_eq_true (List.all_eq_true.mp hall x hx)

/-! ## Scanning -/

/-- What is passed over does not matter. -/
theorem scan_skip (cs : List Char) (n : Nat) (nstr : List Char) :
    scan cs n nstr = scan (cs.drop n) 0 nstr := by
  induction cs generalizing n with
  | nil =>
      rw [List.drop_nil]
      cases n with
      | zero => rfl
      | succ n => rfl
  | cons c cs ih =>
      cases n with
      | zero => rfl
      | succ n =>
          rw [List.drop_succ_cons, ← ih n]
          rfl

theorem scan_char {c : Char} (hc : c ≠ '%') (cs nstr : List Char) :
    scan (c :: cs) 0 nstr = scan cs 0 (nstr ++ [c]) := by
  rw [scan, if_pos hc]

/-- A run of literal characters is collected. -/
theorem scan_run {text : List Char} (htext : '%' ∉ text) (cs nstr : List Char) :
    scan (text ++ cs) 0 nstr = scan cs 0 (nstr ++ text) := by
  induction text generalizing nstr with
  | nil => rw [List.nil_append, List.append_nil]
  | cons c text ih =>
      rw [List.mem_cons, not_or] at htext
      rw [List.cons_append, scan_char (Ne.symm htext.1), ih htext.2, List.append_assoc]
      rfl

/-- A directive whose end is found. -/
theorem scan_directive {cs str fmt : List Char} {n : Nat} (hhead : cs.head? ≠ some '%')
    (hname : scanName cs [] = some (str, fmt, n)) (nstr : List Char) :
    scan ('%' :: cs) 0 nstr
      = (literal nstr ++ ⟨str, fmt, 1⟩ :: (scan (cs.drop n) 0 []).1, (scan (cs.drop n) 0 []).2) := by
  rw [scan, if_neg (by simp), if_neg hhead, hname, ← scan_skip]

theorem scanFormat_closed {f : List Char} (hf : '}' ∉ f) (str rest fmt : List Char) :
    scanFormat str (f ++ '}' :: rest) fmt
      = some (str, fmt ++ f, str.length + (fmt ++ f).length + 2) := by
  induction f generalizing fmt with
  | nil => simp [scanFormat]
  | cons c f ih =>
      rw [List.mem_cons, not_or] at hf
      rw [List.cons_append, scanFormat, if_neg (Ne.symm hf.1), ih hf.2, List.append_assoc]
      rfl

/-- The end of a name. -/
theorem scanName_bounded {rest : List Char} (hrest : Bounded rest) (str : List Char) :
    scanName rest str = some (str, [], str.length) := by
  cases rest with
  | nil => rfl
  | cons c rest =>
      have hc : continues c = false := hrest c rfl
      simp only [continues, Bool.or_eq_false_iff, beq_eq_false_iff_ne] at hc
      rw [scanName, if_pos]
      simp [hc.1.1, hc.1.2, hc.2]

theorem scanName_letter {x : Char} (hx : isalpha x = true) (hbrace : x ≠ '{') (cs str : List Char) :
    scanName (x :: cs) str = scanName cs (str ++ [x]) := by
  rw [scanName, if_neg (by simp [hx]), if_neg hbrace]

/-- All of several `%` but the last are literal characters. -/
theorem scan_percents (j : Nat) (cs nstr : List Char) :
    scan (List.replicate j '%' ++ '%' :: cs) 0 nstr
      = scan ('%' :: cs) 0 (nstr ++ List.replicate j '%') := by
  induction j generalizing nstr with
  | zero => rw [List.replicate_zero, List.nil_append, List.append_nil]
  | succ j ih =>
      have hnext : (List.replicate j '%' ++ '%' :: cs).head? = some '%' := by
        cases j with
        | zero => rfl
        | succ j => rfl
      rw [List.replicate_succ, List.cons_append, scan, if_neg (by simp), if_pos hnext, ih,
        List.append_assoc]
      rfl

/-- Literal characters in front of a directive. -/
theorem scan_text {u : List Char} (hu : '%' ∉ u) (j : Nat) (cs nstr : List Char) :
    scan (u ++ (List.replicate j '%' ++ '%' :: cs)) 0 nstr
      = scan ('%' :: cs) 0 (nstr ++ (u ++ List.replicate j '%')) := by
  rw [scan_run hu, scan_percents, List.append_assoc]

/-- A directive. -/
theorem scan_piece {x : Char} {format : Option (List Char)} {cs : List Char} (hx : x ∈ letters)
    (hclose : Closes format cs) (nstr : List Char) :
    scan ((Segment.directive x format).source ++ cs) 0 nstr
      = (literal nstr ++ (Segment.directive x format).token :: (scan cs 0 []).1,
          (scan cs 0 []).2) := by
  obtain ⟨halpha, hpercent, hbrace⟩ := letter_continues x hx
  cases format with
  | none =>
      show scan ('%' :: x :: cs) 0 nstr = _
      have hname : scanName (x :: cs) [] = some ([x], [], 1) := by
        rw [scanName_letter halpha hbrace]
        exact scanName_bounded hclose [x]
      rw [scan_directive (by simpa using hpercent) hname]
      rfl
  | some f =>
      have hsource : (Segment.directive x (some f)).source ++ cs
          = '%' :: x :: '{' :: (f ++ '}' :: cs) := by
        simp [Segment.source]
      have hname : scanName (x :: '{' :: (f ++ '}' :: cs)) [] = some ([x], f, 1 + f.length + 2) := by
        rw [scanName_letter halpha hbrace, scanName, if_neg (by simp), if_pos rfl,
          scanFormat_closed hclose]
        rfl
      have hdrop : (x :: '{' :: (f ++ '}' :: cs)).drop (1 + f.length + 2) = cs := by
        have hlen : 1 + f.length + 2 = f.length + 1 + 2 := by omega
        rw [hlen, List.drop_succ_cons, List.drop_succ_cons]
        simp
      rw [hsource, scan_directive (by simpa using hpercent) hname, hdrop]
      rfl

/-- A directive starts with one `%`. -/
theorem directive_head {x : Char} (hx : x ∈ letters) (format : Option (List Char)) (cs : List Char) :
    ∃ rest, (Segment.directive x format).source ++ cs = '%' :: rest ∧ rest.head? ≠ some '%' := by
  obtain ⟨-, hpercent, -⟩ := letter_continues x hx
  cases format with
  | none => exact ⟨x :: cs, rfl, by simpa using hpercent⟩
  | some f => exact ⟨x :: '{' :: (f ++ ['}']) ++ cs, rfl, by simpa using hpercent⟩

/-! ## What is written is read -/

/-- What comes behind a run in a valid sequence. -/
theorem Valid.next {segs : List Segment} (h : Valid segs)
    (hnext : ∀ seg ∈ segs.head?, seg.isRun = false) :
    segs = [] ∨ ∃ rest, sourceOf segs = '%' :: rest ∧ rest.head? ≠ some '%' := by
  match segs, h with
  | [], _ => exact .inl rfl
  | .run text :: segs, _ => exact absurd (hnext (.run text) rfl) (by simp [Segment.isRun])
  | .directive x format :: segs, ⟨hx, _, _⟩ => exact .inr (directive_head hx format (sourceOf segs))

theorem scan_valid {segs : List Segment} (h : Valid segs) (nstr : List Char)
    (hstart : nstr = [] ∨ ∀ seg ∈ segs.head?, seg.isRun = false) :
    scan (sourceOf segs) 0 nstr = (literal nstr ++ segs.map Segment.token, false) := by
  induction segs generalizing nstr with
  | nil => simp [sourceOf, scan]
  | cons seg segs ih =>
      rw [sourceOf_cons]
      match seg, h with
      | .run text, ⟨hne, ⟨u, j, htext, hu, hend⟩, hnext, hrest⟩ =>
          obtain rfl : nstr = [] := by
            refine hstart.resolve_right fun hno => ?_
            exact absurd (hno (.run text) rfl) (by simp [Segment.isRun])
          have hgo : scan (text ++ sourceOf segs) 0 [] = scan (sourceOf segs) 0 text := by
            rcases hrest.next hnext with hnil | ⟨rest, hsource, -⟩
            · -- at the end of the pattern
              obtain rfl : j = 0 := hend.resolve_right fun hsome => hsome hnil
              rw [List.replicate_zero, List.append_nil] at htext
              rw [htext, scan_run hu]
              rfl
            · rw [hsource, htext, List.append_assoc, scan_text hu j]
              rfl
          show scan (text ++ sourceOf segs) 0 [] = _
          rw [hgo, ih hrest text (.inr hnext)]
          simp [literal, hne, Segment.token]
      | .directive x format, ⟨hx, hclose, hrest⟩ =>
          rw [scan_piece hx hclose, ih hrest [] (.inl rfl)]
          rfl

theorem Written.valid {segs : List Segment} (h : Written segs) : Valid segs := by
  induction segs with
  | nil => trivial
  | cons seg segs ih =>
      match seg, h with
      | .run text, ⟨hne, htext, hnext, hrest⟩ =>
          exact ⟨hne, ⟨text, 0, (List.append_nil _).symm, htext, .inl rfl⟩, hnext, ih hrest⟩
      | .directive x none, ⟨hx, hbound, hrest⟩ => exact ⟨hx, hbound, ih hrest⟩
      | .directive x (some f), ⟨hx, hf, hrest⟩ => exact ⟨hx, hf, ih hrest⟩

/-- Without two adjacent `%`, no run ends in one. -/
theorem Valid.written {segs : List Segment} (h : Valid segs)
    (hpairs : ¬ ['%', '%'] <:+: sourceOf segs) : Written segs := by
  induction segs with
  | nil => trivial
  | cons seg segs ih =>
      have hrest : ¬ ['%', '%'] <:+: sourceOf segs := fun hin =>
        hpairs (hin.trans (List.suffix_append seg.source (sourceOf segs)).isInfix)
      match seg, h with
      | .run text, ⟨hne, ⟨u, j, htext, hu, hend⟩, hnext, hvalid⟩ =>
          refine ⟨hne, ?_, hnext, ih hvalid hrest⟩
          cases j with
          | zero =>
              rw [htext, List.replicate_zero, List.append_nil]
              exact hu
          | succ j =>
              rcases hvalid.next hnext with hnil | ⟨rest, hsource, -⟩
              · exact absurd hnil (hend.resolve_left (Nat.succ_ne_zero j))
              · refine absurd ⟨u ++ List.replicate j '%', rest, ?_⟩ hpairs
                rw [sourceOf_cons, hsource, Segment.source, htext, List.replicate_succ']
                simp
      | .directive x none, ⟨hx, hbound, hvalid⟩ => exact ⟨hx, hbound, ih hvalid hrest⟩
      | .directive x (some f), ⟨hx, hf, hvalid⟩ => exact ⟨hx, hf, ih hvalid hrest⟩

/-! ## What is read is written -/

theorem scanFormat_unclosed {cs : List Char} (h : '}' ∉ cs) (str fmt : List Char) :
    scanFormat str cs fmt = none := by
  induction cs generalizing fmt with
  | nil => rfl
  | cons c cs ih =>
      rw [List.mem_cons, not_or] at h
      rw [scanFormat, if_neg (Ne.symm h.1)]
      exact ih h.2 (fmt ++ [c])

/-- **Where a directive ends**: behind a name, behind a name and a format, or nowhere. -/
theorem scanName_cases (cs str : List Char) :
    (∃ w rest, cs = w ++ rest ∧ Bounded rest ∧
      scanName cs str = some (str ++ w, [], (str ++ w).length)) ∨
    (∃ w f rest, cs = w ++ '{' :: (f ++ '}' :: rest) ∧ '}' ∉ f ∧
      scanName cs str = some (str ++ w, f, (str ++ w).length + f.length + 2)) ∨
    scanName cs str = none := by
  induction cs generalizing str with
  | nil =>
      refine .inl ⟨[], [], rfl, ?_, ?_⟩
      · intro c hc
        cases hc
      · rw [List.append_nil]
        rfl
  | cons c cs ih =>
      by_cases hc : continues c = false
      · -- the name ends here
        have hbound : Bounded (c :: cs) := by
          intro d hd
          cases hd
          exact hc
        refine .inl ⟨[], c :: cs, rfl, hbound, ?_⟩
        rw [scanName_bounded hbound, List.append_nil]
      · have hgo : ¬ (!isalpha c && c != '{' && c != '}') = true := by
          simp only [continues, Bool.or_eq_false_iff, beq_eq_false_iff_ne] at hc
          simp only [Bool.and_eq_true, Bool.not_eq_true', bne_iff_ne]
          tauto
        rw [scanName, if_neg hgo]
        by_cases hbrace : c = '{'
        · subst hbrace
          rw [if_pos rfl]
          by_cases hclosed : '}' ∈ cs
          · obtain ⟨f, rest, rfl, hf⟩ := List.eq_append_cons_of_mem hclosed
            refine .inr (.inl ⟨[], f, rest, rfl, hf, ?_⟩)
            rw [scanFormat_closed hf, List.append_nil, List.nil_append]
          · exact .inr (.inr (scanFormat_unclosed hclosed str []))
        · rw [if_neg hbrace]
          rcases ih (str ++ [c]) with ⟨w, rest, rfl, hbound, hrun⟩ | ⟨w, f, rest, rfl, hf, hrun⟩ | hnone
          · refine .inl ⟨c :: w, rest, rfl, hbound, ?_⟩
            rw [hrun, List.append_assoc]
            rfl
          · refine .inr (.inl ⟨c :: w, f, rest, rfl, hf, ?_⟩)
            rw [hrun, List.append_assoc]
            rfl
          · exact .inr (.inr hnone)

/-- The literal text in front of a sequence that does not start with one. -/
def behindRun (nstr : List Char) (segs : List Segment) : List Segment :=
  if nstr = [] then segs else .run nstr :: segs

theorem sourceOf_behindRun (nstr : List Char) (segs : List Segment) :
    sourceOf (behindRun nstr segs) = nstr ++ sourceOf segs := by
  unfold behindRun
  split
  · rename_i hempty
    rw [hempty, List.nil_append]
  · rfl

theorem valid_behindRun {nstr : List Char} {segs : List Segment} (hnstr : Ends nstr segs)
    (hstart : ∀ seg ∈ segs.head?, seg.isRun = false) (h : Valid segs) :
    Valid (behindRun nstr segs) := by
  unfold behindRun
  split
  · exact h
  · rename_i hne
    exact ⟨hne, hnstr, hstart, h⟩

/-- A directive is no error only if its letter is known. -/
theorem letter_of_item {str fmt : List Char} (h : (Token.item ⟨str, fmt, 1⟩).2 = false) :
    ∃ x ∈ letters, str = [x] := by
  rw [← s_format_items_isSome str (String.ofList fmt)]
  unfold Token.item at h
  rw [if_neg (by simp)] at h
  dsimp only at h
  split at h
  · cases h
  · rename_i item hitem
    rw [hitem]
    rfl

/-- What is behind a single `%` is a directive, where the scanner finds no error. -/
theorem directive_of_scan {cs nstr : List Char} (hhead : cs.head? ≠ some '%')
    (hscan : (scan ('%' :: cs) 0 nstr).2 = false)
    (hitems : ∀ t ∈ (scan ('%' :: cs) 0 nstr).1, t.item.2 = false) :
    ∃ x format rest, x ∈ letters ∧ Closes format rest ∧
      '%' :: cs = (Segment.directive x format).source ++ rest := by
  rcases scanName_cases cs [] with ⟨w, rest, heq, hbound, hname⟩ | ⟨w, f, rest, heq, hf, hname⟩ |
    hnone
  · rw [scan_directive hhead hname] at hitems
    obtain ⟨x, hx, hw⟩ :=
      letter_of_item (hitems ⟨[] ++ w, [], 1⟩ (List.mem_append_right _ List.mem_cons_self))
    rw [List.nil_append] at hw
    exact ⟨x, none, rest, hx, hbound, by rw [heq, hw]; rfl⟩
  · rw [scan_directive hhead hname] at hitems
    obtain ⟨x, hx, hw⟩ :=
      letter_of_item (hitems ⟨[] ++ w, f, 1⟩ (List.mem_append_right _ List.mem_cons_self))
    rw [List.nil_append] at hw
    exact ⟨x, some f, rest, hx, hf, by simp [heq, hw, Segment.source]⟩
  · -- the brace is not closed
    rw [scan, if_neg (by simp), if_neg hhead, hnone] at hscan
    cases hscan

/-- The pattern is a sequence of pieces, where the scanner finds no error. -/
theorem valid_of_scan (cs nstr : List Char)
    (hnstr : ∃ u j, nstr = u ++ List.replicate j '%' ∧ '%' ∉ u ∧ (j = 0 ∨ cs.head? = some '%'))
    (hscan : (scan cs 0 nstr).2 = false) (hitems : ∀ t ∈ (scan cs 0 nstr).1, t.item.2 = false) :
    ∃ segs, Valid segs ∧ sourceOf segs = nstr ++ cs := by
  induction hlen : cs.length using Nat.strong_induction_on generalizing cs nstr with
  | _ len ih =>
    obtain ⟨u, j, hj, hu, hend⟩ := hnstr
    match cs with
    | [] =>
        obtain rfl : j = 0 := hend.resolve_right (by simp)
        refine ⟨behindRun nstr [], valid_behindRun ⟨u, 0, hj, hu, .inl rfl⟩ ?_ trivial,
          sourceOf_behindRun nstr []⟩
        intro seg hseg
        cases hseg
    | c :: cs =>
        rw [List.length_cons] at hlen
        by_cases hc : c = '%'
        · subst hc
          by_cases hhead : cs.head? = some '%'
          · -- the first of two is a literal character
            rw [scan, if_neg (by simp), if_pos hhead] at hscan hitems
            obtain ⟨segs, hsegs, hsource⟩ := ih cs.length (by omega) cs (nstr ++ ['%'])
              ⟨u, j + 1, by rw [hj, List.append_assoc, List.replicate_succ'], hu, .inr hhead⟩
              hscan hitems rfl
            exact ⟨segs, hsegs, by simpa using hsource⟩
          · -- a directive, and the rest of the pattern is shorter
            obtain ⟨x, format, rest, hx, hclose, heq⟩ := directive_of_scan hhead hscan hitems
            have hshort : rest.length < len := by
              have hlength := congrArg List.length heq
              cases format with
              | none =>
                  simp only [Segment.source, List.length_cons, List.length_append] at hlength
                  omega
              | some f =>
                  simp only [Segment.source, List.length_cons, List.length_append] at hlength
                  omega
            rw [heq, scan_piece hx hclose] at hscan hitems
            obtain ⟨segs, hsegs, hsource⟩ := ih _ hshort rest []
              ⟨[], 0, rfl, List.not_mem_nil, .inl rfl⟩ hscan
              (fun t ht => hitems t (List.mem_append_right _ (List.mem_cons_of_mem _ ht))) rfl
            rw [List.nil_append] at hsource
            refine ⟨behindRun nstr (.directive x format :: segs), valid_behindRun ?_ ?_ ?_, ?_⟩
            · exact ⟨u, j, hj, hu, .inr (by simp)⟩
            · intro seg hseg
              cases hseg
              rfl
            · exact ⟨hx, hsource ▸ hclose, hsegs⟩
            · rw [sourceOf_behindRun, sourceOf_cons, hsource, heq]
        · obtain rfl : j = 0 := hend.resolve_right (by simpa using hc)
          rw [List.replicate_zero, List.append_nil] at hj
          rw [scan_char hc] at hscan hitems
          have hnstr' : '%' ∉ nstr ++ [c] := by
            simp [hj, hu, Ne.symm hc]
          obtain ⟨segs, hsegs, hsource⟩ := ih cs.length (by omega) cs (nstr ++ [c])
            ⟨nstr ++ [c], 0, by simp, hnstr', .inl rfl⟩ hscan hitems rfl
          refine ⟨segs, hsegs, ?_⟩
          rw [hsource, List.append_assoc]
          rfl

/-! ## The parser -/

/-- The pieces are the pattern, character for character. -/
def Reads (pattern : String) (segs : List Segment) : Prop :=
  Written segs ∧ sourceOf segs = pattern.toList

/-- `vec` behind the outer loop of `init`. -/
def vecOf (pattern : String) : List Token := (scan pattern.toList 0 []).1

/-- The item of a piece whose letter is known. -/
theorem makes_item {segs : List Segment} (h : Valid segs) :
    List.Forall₂ Segment.Makes segs (segs.map fun seg => seg.token.item.1) ∧
      ∀ seg ∈ segs, seg.token.item.2 = false := by
  have hdirective : ∀ x format, x ∈ letters →
      Segment.Makes (.directive x format) (Segment.directive x format).token.item.1 ∧
        (Segment.directive x format).token.item.2 = false := by
    intro x format hx
    have hknown : (s_format_items [x] (String.ofList (format.getD []))).isSome = true :=
      (s_format_items_isSome _ _).mpr ⟨x, hx, rfl⟩
    obtain ⟨item, hitem⟩ := Option.isSome_iff_exists.mp hknown
    have hboth : (Segment.directive x format).token.item = (item, false) := by
      simp [Segment.token, Token.item, hitem]
    rw [hboth]
    exact ⟨hitem, rfl⟩
  induction segs with
  | nil =>
      refine ⟨.nil, ?_⟩
      intro seg hseg
      cases hseg
  | cons seg segs ih =>
      have hseg : seg.Makes seg.token.item.1 ∧ seg.token.item.2 = false ∧ Valid segs := by
        match seg, h with
        | .run text, ⟨_, _, _, hrest⟩ => exact ⟨rfl, rfl, hrest⟩
        | .directive x format, ⟨hx, _, hrest⟩ =>
            exact ⟨(hdirective x format hx).1, (hdirective x format hx).2, hrest⟩
      obtain ⟨hmakes, hno, hrest⟩ := hseg
      obtain ⟨hitems, hnone⟩ := ih hrest
      exact ⟨.cons hmakes hitems, List.forall_mem_cons.mpr ⟨hno, hnone⟩⟩

/-- The items of a sequence of pieces. -/
def itemsOf (segs : List Segment) : List FormatItem := segs.map fun seg => seg.token.item.1

theorem new_of_scan {pattern : String} {vec : List Token}
    (hscan : scan pattern.toList 0 [] = (vec, false)) (hno : ∀ t ∈ vec, t.item.2 = false) :
    (LogFormatter.new pattern).m_error = false ∧
      (LogFormatter.new pattern).m_items = vec.map fun t => t.item.1 := by
  unfold LogFormatter.new
  rw [hscan]
  exact ⟨by simpa using hno, rfl⟩

/-- What the parser makes of a valid sequence of pieces. -/
theorem new_valid {pattern : String} {segs : List Segment} (h : Valid segs)
    (hsource : sourceOf segs = pattern.toList) : vecOf pattern = segs.map Segment.token ∧
      (LogFormatter.new pattern).m_error = false ∧
      (LogFormatter.new pattern).m_items = itemsOf segs := by
  have hscan : scan pattern.toList 0 [] = (segs.map Segment.token, false) := by
    rw [← hsource]
    exact scan_valid h [] (.inl rfl)
  have hno : ∀ t ∈ segs.map Segment.token, t.item.2 = false := by
    intro t ht
    obtain ⟨seg, hseg, rfl⟩ := List.mem_map.mp ht
    exact (makes_item h).2 seg hseg
  obtain ⟨herror, hitems⟩ := new_of_scan hscan hno
  refine ⟨?_, herror, ?_⟩
  · unfold vecOf
    rw [hscan]
  · rw [hitems, List.map_map]
    rfl

/-- **What the parser accepts** are the sources of valid sequences. -/
theorem accepted_iff (pattern : String) : (LogFormatter.new pattern).m_error = false ↔
    ∃ segs, Valid segs ∧ sourceOf segs = pattern.toList := by
  constructor
  · intro hno
    obtain ⟨hscan, hitems⟩ := Bool.or_eq_false_iff.mp hno
    exact valid_of_scan pattern.toList [] ⟨[], 0, rfl, List.not_mem_nil, .inl rfl⟩ hscan
      (fun t ht => by simpa using List.any_eq_false.mp hitems t ht)
  · rintro ⟨segs, hsegs, hsource⟩
    exact (new_valid hsegs hsource).2.1

/-- **The pattern parser**: no error iff the pattern is in the grammar, and then exactly its pieces. -/
theorem pattern_read (pattern : String) (hpairs : ¬ ['%', '%'] <:+: pattern.toList) :
    ((LogFormatter.new pattern).m_error = false ↔ ∃ segs, Reads pattern segs) ∧
      ∀ segs, Reads pattern segs → vecOf pattern = segs.map Segment.token ∧
        List.Forall₂ Segment.Makes segs (LogFormatter.new pattern).m_items ∧
        segs.flatMap Segment.source = pattern.toList := by
  refine ⟨?_, ?_⟩
  · rw [accepted_iff]
    constructor
    · rintro ⟨segs, hsegs, hsource⟩
      exact ⟨segs, hsegs.written (by rwa [hsource]), hsource⟩
    · rintro ⟨segs, hsegs, hsource⟩
      exact ⟨segs, hsegs.valid, hsource⟩
  · rintro segs ⟨hsegs, hsource⟩
    obtain ⟨hvec, -, hitems⟩ := new_valid hsegs.valid hsource
    refine ⟨hvec, ?_, hsource⟩
    rw [hitems]
    exact (makes_item hsegs.valid).1

/-- `[%d{%H:%M}] %p`, and the same with a brace that is not closed. -/
theorem pattern_read_dated :
    (vecOf "[%d\x7b%H:%M\x7d] %p" = [⟨['['], [], 0⟩, ⟨['d'], "%H:%M".toList, 1⟩,
      ⟨"] ".toList, [], 0⟩, ⟨['p'], [], 1⟩] ∧
      ∃ segs, Reads "[%d\x7b%H:%M\x7d] %p" segs) ∧
    ¬ ∃ segs, Reads "[%d\x7b%H:%M] %p" segs := by
  have hclosed := pattern_read "[%d\x7b%H:%M\x7d] %p" (by decide)
  have hopen := pattern_read "[%d\x7b%H:%M] %p" (by decide)
  refine ⟨⟨by decide, hclosed.1.mp (by decide)⟩, ?_⟩
  intro hreads
  exact absurd (hopen.1.mpr hreads) (by decide)

end Sylar.Log
