/-
# Sylar.Log.Escape — doubled `%` in a pattern.

The comment above the parser lists `%%` as the way to write a `%`.  The loop takes the first of the two
for a literal character and goes on with the second, which starts a directive: `escape s`, `s` with every
`%` doubled, stands for `s` only where `s` has no `%` (`escaped_iff`).

The proof goes along the runs of `%` in `s` (`escaped_cases`).  Behind each the escaped text has a literal
with one `%` less than it was written with, and a directive.  That the output is still not `s` by accident
is a matter of two things, for an event whose texts are all `0`: a directive does not write its own letter
first, and no directive writes a brace, so that the output has at most the braces of `s` (`brace_count`).
-/
import Sylar.Log.Output

namespace Sylar.Log

/-! ## Escaping -/

/-- A text with every `%` doubled. -/
def escape (s : List Char) : List Char := s.flatMap fun c => if c = '%' then ['%', '%'] else [c]

@[simp] theorem escape_nil : escape [] = [] := rfl

theorem escape_percent (s : List Char) : escape ('%' :: s) = '%' :: '%' :: escape s := rfl

theorem escape_char {c : Char} (hc : c ≠ '%') (s : List Char) : escape (c :: s) = c :: escape s := by
  rw [escape, List.flatMap_cons, if_neg hc]
  rfl

theorem escape_append (s t : List Char) : escape (s ++ t) = escape s ++ escape t :=
  List.flatMap_append

theorem escape_self {s : List Char} (h : '%' ∉ s) : escape s = s := by
  induction s with
  | nil => rfl
  | cons c s ih =>
      rw [List.mem_cons, not_or] at h
      rw [escape_char (Ne.symm h.1), ih h.2]

theorem escape_replicate (n : Nat) :
    escape (List.replicate n '%') = List.replicate (2 * n) '%' := by
  induction n with
  | zero => rfl
  | succ n ih =>
      have htwo : 2 * (n + 1) = 2 * n + 1 + 1 := by omega
      rw [List.replicate_succ, escape_percent, ih, htwo, List.replicate_succ, List.replicate_succ]

/-- No other character comes in or goes. -/
theorem mem_escape {c : Char} (hc : c ≠ '%') (s : List Char) : c ∈ escape s ↔ c ∈ s := by
  induction s with
  | nil => rfl
  | cons d s ih =>
      by_cases hd : d = '%'
      · subst hd
        rw [escape_percent, List.mem_cons, List.mem_cons, List.mem_cons, ih]
        tauto
      · rw [escape_char hd, List.mem_cons, List.mem_cons, ih]

/-- `strftime` takes an escaped text back. -/
theorem strftimeText_escape (conv : Conversions) (time : UInt64) (s : List Char) :
    strftimeText conv time (escape s) 0 = s := by
  induction s with
  | nil => rfl
  | cons c s ih =>
      by_cases hc : c = '%'
      · subst hc
        rw [escape_percent, strftimeText_percent, ih]
      · rw [escape_char hc, strftimeText_char hc, ih]

theorem c_str_escape (s : List Char) : c_str (escape s) = escape (c_str s) := by
  induction s with
  | nil => rfl
  | cons c s ih =>
      by_cases hc : c = '%'
      · subst hc
        show '%' :: '%' :: c_str (escape s) = _
        rw [ih]
        rfl
      · rw [escape_char hc, c_str, List.takeWhile_cons, c_str, List.takeWhile_cons]
        split
        · rw [escape_char hc]
          exact congrArg (c :: ·) ih
        · rfl

/-- A text up to its first run of `%`, the run, and the rest. -/
theorem first_percents {s : List Char} (h : '%' ∈ s) :
    ∃ u k v, s = u ++ (List.replicate (k + 1) '%' ++ v) ∧ '%' ∉ u ∧ v.head? ≠ some '%' := by
  obtain ⟨u, t, rfl, hu⟩ := List.eq_append_cons_of_mem h
  have hrun : t = List.replicate (t.takeWhile (· = '%')).length '%' ++ t.dropWhile (· = '%') := by
    have hall : t.takeWhile (· = '%') = List.replicate (t.takeWhile (· = '%')).length '%' := by
      refine List.eq_replicate_iff.mpr ⟨rfl, fun c hc => ?_⟩
      simpa using List.mem_takeWhile_imp hc
    rw [← hall, List.takeWhile_append_dropWhile]
  refine ⟨u, (t.takeWhile (· = '%')).length, t.dropWhile (· = '%'), ?_, hu, ?_⟩
  · rw [List.replicate_succ, List.cons_append, ← hrun]
  · intro hhead
    have hnot := List.head?_dropWhile_not (fun c => decide (c = '%')) t
    rw [hhead] at hnot
    simp at hnot

/-- The run of an escaped text. -/
theorem escape_percents {u : List Char} (hu : '%' ∉ u) (k : Nat) (v cs : List Char) :
    escape (u ++ (List.replicate (k + 1) '%' ++ v)) ++ cs
      = u ++ (List.replicate (2 * k + 1) '%' ++ '%' :: (escape v ++ cs)) := by
  have htwo : 2 * (k + 1) = 2 * k + 1 + 1 := by omega
  rw [escape_append, escape_append, escape_self hu, escape_replicate, htwo, List.replicate_succ']
  simp only [List.append_assoc, List.cons_append, List.nil_append]

/-! ## What the scanner makes of it -/

/-- No error is found in a pattern. -/
def Accepted (cs : List Char) : Prop :=
  (scan cs 0 []).2 = false ∧ ∀ t ∈ (scan cs 0 []).1, t.item.2 = false

/-- The items of a pattern. -/
def itemsIn (cs : List Char) : List FormatItem := (scan cs 0 []).1.map fun t => t.item.1

theorem itemsIn_valid {segs : List Segment} (h : Valid segs) :
    itemsIn (sourceOf segs) = itemsOf segs := by
  rw [itemsIn, scan_valid h [] (.inl rfl)]
  show (segs.map Segment.token).map _ = _
  rw [List.map_map]
  rfl

theorem new_accepted (cs : List Char) :
    ((LogFormatter.new (String.ofList cs)).m_error = false ↔ Accepted cs) ∧
      (LogFormatter.new (String.ofList cs)).m_items = itemsIn cs := by
  have hlist : (String.ofList cs).toList = cs := String.toList_ofList
  constructor
  · show ((scan (String.ofList cs).toList 0 []).2 || _) = false ↔ _
    rw [Bool.or_eq_false_iff, hlist, Accepted, List.any_eq_false]
    simp only [Bool.not_eq_true]
  · show (scan (String.ofList cs).toList 0 []).1.map _ = _
    rw [hlist]
    rfl

/-- What is found is behind what it is not in. -/
theorem behind_of_notMem {c : Char} {p q f rest : List Char} (hp : c ∉ p)
    (h : p ++ q = f ++ c :: rest) : ∃ g, f = p ++ g ∧ q = g ++ c :: rest := by
  induction p generalizing f with
  | nil => exact ⟨f, rfl, h⟩
  | cons d p ih =>
      rw [List.mem_cons, not_or] at hp
      cases f with
      | nil =>
          rw [List.cons_append, List.nil_append] at h
          exact absurd (List.cons.inj h).1.symm hp.1
      | cons e f =>
          obtain ⟨rfl, htail⟩ := List.cons.inj h
          obtain ⟨g, rfl, hg⟩ := ih hp.2 htail
          exact ⟨g, rfl, hg⟩

theorem first_unique {c : Char} {p q f rest : List Char} (hp : c ∉ p) (hf : c ∉ f)
    (h : p ++ c :: q = f ++ c :: rest) : f = p ∧ q = rest := by
  obtain ⟨g, rfl, hg⟩ := behind_of_notMem hp h
  cases g with
  | nil => exact ⟨List.append_nil p, (List.cons.inj hg).2⟩
  | cons d g =>
      obtain ⟨rfl, -⟩ := List.cons.inj hg
      exact absurd (List.mem_append_right p List.mem_cons_self) hf

/-- The first brace is in the escaped text or behind it. -/
theorem brace_split {s cs f rest : List Char} (hf : '}' ∉ f)
    (h : escape s ++ cs = f ++ '}' :: rest) :
    (∃ g w, s = g ++ '}' :: w ∧ '}' ∉ g ∧ f = escape g ∧ rest = escape w ++ cs) ∨
      ∃ g, cs = g ++ '}' :: rest ∧ '}' ∉ g := by
  by_cases hs : '}' ∈ s
  · obtain ⟨g, w, rfl, hg⟩ := List.eq_append_cons_of_mem hs
    have hg' : '}' ∉ escape g := by rwa [mem_escape (by decide)]
    rw [escape_append, escape_char (by decide), List.append_assoc, List.cons_append] at h
    obtain ⟨hfst, hrest⟩ := first_unique hg' hf h
    exact .inl ⟨g, w, rfl, hg, hfst, hrest.symm⟩
  · have hs' : '}' ∉ escape s := by rwa [mem_escape (by decide)]
    obtain ⟨g, rfl, hg⟩ := behind_of_notMem hs' h
    exact .inr ⟨g, hg, fun hin => hf (List.mem_append_right _ hin)⟩

/-- The rest of a run. -/
theorem Ends.behind {g b : List Char} {c : Char} {segs : List Segment} (hc : c ≠ '%')
    (h : Ends (g ++ c :: b) segs) : Ends b segs := by
  obtain ⟨u, j, htext, hu, hend⟩ := h
  have hrun : c ∉ List.replicate j '%' := fun hin => hc (List.eq_of_mem_replicate hin)
  rcases List.append_eq_append_iff.mp htext with ⟨a, rfl, ha⟩ | ⟨a, -, ha⟩
  · cases a with
    | nil =>
        rw [List.nil_append] at ha
        exact absurd (ha ▸ List.mem_cons_self) hrun
    | cons d a =>
        obtain ⟨rfl, hb⟩ := List.cons.inj ha
        refine ⟨a, j, hb, fun hin => hu ?_, hend⟩
        exact List.mem_append_right _ (List.mem_cons_of_mem _ hin)
  · exact absurd (ha ▸ List.mem_append_right _ List.mem_cons_self) hrun

theorem length_behindRun (text : List Char) (segs : List Segment) :
    (behindRun text segs).length ≤ segs.length + 1 := by
  unfold behindRun
  split
  · omega
  · rw [List.length_cons]

/-- The only brace that closes, of a directive, is the one of its format. -/
theorem letter_brace {x : Char} (hx : x ∈ letters) {f : List Char} (hf : '}' ∉ f) :
    '}' ∉ ['%', x] ∧ '}' ∉ '%' :: x :: '{' :: f := by
  have hbrace : '}' ≠ x := by
    rintro rfl
    exact absurd hx (by decide)
  refine ⟨?_, ?_⟩
  · simp [hbrace]
  · simp [hbrace, hf]

/-- Behind the first brace of a pattern there are fewer pieces, if it starts with a directive. -/
theorem scan_behind_brace {segs : List Segment} (h : Valid segs) {f rest : List Char}
    (hf : '}' ∉ f) (hsource : sourceOf segs = f ++ '}' :: rest) :
    (itemsIn rest).length ≤ segs.length ∧
      ((∀ seg ∈ segs.head?, seg.isRun = false) → (itemsIn rest).length < segs.length) := by
  induction segs generalizing f with
  | nil =>
      have hin : '}' ∈ sourceOf [] := by
        rw [hsource]
        exact List.mem_append_right _ List.mem_cons_self
      cases hin
  | cons seg segs ih =>
      rw [sourceOf_cons] at hsource
      -- a piece without a brace is passed over
      have hover : '}' ∉ seg.source → Valid segs →
          (itemsIn rest).length ≤ segs.length := by
        intro hno hrest
        obtain ⟨g, rfl, hg⟩ := behind_of_notMem hno hsource
        exact (ih hrest (fun hin => hf (List.mem_append_right _ hin)) hg).1
      rw [List.length_cons]
      match seg, h with
      | .run text, ⟨hne, ⟨u, j, htext, hu, hend⟩, hnext, hrest⟩ =>
          by_cases hin : '}' ∈ text
          · obtain ⟨g, b, rfl, hg⟩ := List.eq_append_cons_of_mem hin
            rw [Segment.source, List.append_assoc, List.cons_append] at hsource
            obtain ⟨-, hbehind⟩ := first_unique hg hf hsource
            -- what is left of the run, and the pieces behind it
            have hends : Ends b segs := Ends.behind (by decide) ⟨u, j, htext, hu, hend⟩
            have hvalid := valid_behindRun hends hnext hrest
            rw [← hbehind, ← sourceOf_behindRun, itemsIn_valid hvalid, itemsOf, List.length_map]
            refine ⟨length_behindRun b segs, fun hopens => ?_⟩
            exact absurd (hopens _ rfl) (by simp [Segment.isRun])
          · have hle := hover hin hrest
            exact ⟨by omega, fun _ => by omega⟩
      | .directive x none, ⟨hx, hclose, hrest⟩ =>
          have hle := hover (letter_brace hx List.not_mem_nil).1 hrest
          exact ⟨by omega, fun _ => by omega⟩
      | .directive x (some g), ⟨hx, hclose, hrest⟩ =>
          have hno : '}' ∉ '%' :: x :: '{' :: g := (letter_brace hx hclose).2
          have hclosed : ('%' :: x :: '{' :: g) ++ '}' :: sourceOf segs = f ++ '}' :: rest := by
            rw [← hsource]
            simp [Segment.source]
          obtain ⟨-, hbehind⟩ := first_unique hno hf hclosed
          rw [← hbehind, itemsIn_valid hrest, itemsOf, List.length_map]
          exact ⟨by omega, fun _ => by omega⟩

section Behind

variable {right : List Segment} (hright : Valid right)
  (hopens : ∀ seg ∈ right.head?, seg.isRun = false)

include hright hopens

/-- The brace of a format is not the first character of what comes behind. -/
theorem brace_open {s cs : List Char} (h : escape s ++ sourceOf right = '{' :: cs) :
    ∃ t, s = '{' :: t ∧ escape t ++ sourceOf right = cs := by
  cases s with
  | nil =>
      rw [escape_nil, List.nil_append] at h
      rcases hright.next hopens with rfl | ⟨rest, hsource, -⟩
      · cases h
      · rw [hsource] at h
        cases h
  | cons c s =>
      by_cases hc : c = '%'
      · subst hc
        rw [escape_percent] at h
        cases h
      · rw [escape_char hc, List.cons_append] at h
        obtain ⟨rfl, hrest⟩ := List.cons.inj h
        exact ⟨s, rfl, hrest⟩

/-- The directive behind a run of `%`: its letter is the next character of the text, its format is in
the text, or it goes on to a brace behind it. -/
theorem directive_behind {v : List Char} {x : Char} {format : Option (List Char)} {rest : List Char}
    (hne : v ≠ []) (hv : v.head? ≠ some '%') (hclose : Closes format rest)
    (h : '%' :: (escape v ++ sourceOf right) = (Segment.directive x format).source ++ rest) :
    ∃ t, v = x :: t ∧
      ((∃ gap w, t = gap ++ w ∧ rest = escape w ++ sourceOf right ∧
          ((format = none ∧ gap = []) ∨
            ∃ g, '}' ∉ g ∧ format = some (escape g) ∧ gap = '{' :: (g ++ ['}']))) ∨
        ∃ g, sourceOf right = g ++ '}' :: rest ∧ '}' ∉ g) := by
  obtain ⟨c, t, rfl⟩ := List.exists_cons_of_ne_nil hne
  have hc : c ≠ '%' := by simpa using hv
  rw [escape_char hc, List.cons_append] at h
  cases format with
  | none =>
      obtain ⟨rfl, hrest⟩ := List.cons.inj (List.cons.inj h).2
      exact ⟨t, rfl, .inl ⟨[], t, rfl, hrest.symm, .inl ⟨rfl, rfl⟩⟩⟩
  | some f =>
      obtain ⟨rfl, hrest⟩ := List.cons.inj (List.cons.inj h).2
      refine ⟨t, rfl, ?_⟩
      have hopen : escape t ++ sourceOf right = '{' :: (f ++ '}' :: rest) := by
        rw [hrest]
        show '{' :: (f ++ ['}'] ++ rest) = _
        rw [List.append_assoc]
        rfl
      obtain ⟨w, rfl, hbrace⟩ := brace_open hright hopens hopen
      rcases brace_split hclose hbrace with ⟨g, w', rfl, hg, rfl, hw⟩ | hbehind
      · refine .inl ⟨'{' :: (g ++ ['}']), w', by simp, hw, .inr ⟨g, hg, rfl, rfl⟩⟩
      · exact .inr hbehind

/-- **The first run of `%`** in an escaped text is one `%` too long and starts a directive, if it has
not the start of one behind it. -/
theorem escaped_cases {s : List Char} (hs : '%' ∈ s)
    (haccepted : Accepted (escape s ++ sourceOf right)) :
    ∃ u k v, s = u ++ (List.replicate (k + 1) '%' ++ v) ∧ '%' ∉ u ∧ v.head? ≠ some '%' ∧
      ((v = [] ∧ itemsIn (escape s ++ sourceOf right)
          = .string (String.ofList (u ++ List.replicate (2 * k + 2) '%')) :: itemsOf right) ∨
        ∃ x format rest, x ∈ letters ∧ v ≠ [] ∧ Closes format rest ∧
          '%' :: (escape v ++ sourceOf right) = (Segment.directive x format).source ++ rest ∧
          Accepted rest ∧ itemsIn (escape s ++ sourceOf right)
            = .string (String.ofList (u ++ List.replicate (2 * k + 1) '%'))
              :: (Segment.directive x format).token.item.1 :: itemsIn rest) := by
  obtain ⟨u, k, v, rfl, hu, hv⟩ := first_percents hs
  refine ⟨u, k, v, rfl, hu, hv, ?_⟩
  rw [escape_percents hu] at haccepted ⊢
  have hgo := scan_text hu (2 * k + 1) (escape v ++ sourceOf right) []
  rw [List.nil_append] at hgo
  have hlit : u ++ List.replicate (2 * k + 1) '%' ≠ [] := by simp
  cases v with
  | nil =>
      rw [escape_nil, List.nil_append] at hgo haccepted ⊢
      rcases hright.next hopens with rfl | ⟨rest, hsource, -⟩
      · -- the last `%` is a directive without a name
        obtain ⟨hscan, hitems⟩ := haccepted
        rw [hgo] at hscan hitems
        obtain ⟨x, format, rest, -, -, heq⟩ := directive_of_scan (by simp [sourceOf]) hscan hitems
        cases format with
        | none => cases heq
        | some f => cases heq
      · have hvalid : Valid (.run (u ++ List.replicate (2 * k + 2) '%') :: right) := by
          refine ⟨by simp, ⟨u, 2 * k + 2, rfl, hu, .inr ?_⟩, hopens, hright⟩
          rintro rfl
          cases hsource
        refine .inl ⟨rfl, ?_⟩
        have hrun : u ++ (List.replicate (2 * k + 1) '%' ++ '%' :: sourceOf right)
            = sourceOf (.run (u ++ List.replicate (2 * k + 2) '%') :: right) := by
          rw [sourceOf_cons, Segment.source, List.replicate_succ' (n := 2 * k + 1)]
          simp only [List.append_assoc, List.cons_append, List.nil_append]
        rw [hrun, itemsIn_valid hvalid]
        rfl
  | cons c v =>
      have hc : c ≠ '%' := by simpa using hv
      have hhead : (escape (c :: v) ++ sourceOf right).head? ≠ some '%' := by
        rw [escape_char hc]
        simpa using hc
      obtain ⟨hscan, hitems⟩ := haccepted
      rw [hgo] at hscan hitems
      obtain ⟨x, format, rest, hx, hclose, heq⟩ := directive_of_scan hhead hscan hitems
      rw [heq, scan_piece hx hclose] at hscan hitems
      refine .inr ⟨x, format, rest, hx, List.cons_ne_nil c v, hclose, heq, ⟨hscan, ?_⟩, ?_⟩
      · intro t ht
        exact hitems t (List.mem_append_right _ (List.mem_cons_of_mem _ ht))
      · rw [itemsIn, hgo, heq, scan_piece hx hclose, literal, if_neg hlit]
        rfl

end Behind

/-! ## What it writes -/

/-- The conversions in the default format write decimal numbers. -/
def Numbers (conv : Conversions) : Prop :=
  ∀ x ∈ ['Y', 'm', 'd', 'H', 'M', 'S'], ∀ cs time, ∃ text, conv (x :: cs) time = (text, 1) ∧
    text ≠ [] ∧ ∀ c ∈ text, c.isDigit = true ∨ c = '-'

/-- An event whose texts and numbers are all `0`. -/
def zeros : LogEvent := ⟨"0", 0, 0, 0, 0, 0, "0", "0", "0"⟩

/-- The text of a letter, of an event of zeros, does not start with the letter. -/
theorem letter_text (conv : Conversions) {x : Char} (hx : x ∈ letters) (hd : x ≠ 'd')
    (format : Option (List Char)) : ∃ c text,
      (Segment.directive x format).token.item.1.format conv .debug zeros = some (c :: text) ∧
        c ≠ x ∧ '}' ∉ c :: text := by
  simp only [letters, List.mem_cons, List.not_mem_nil, or_false] at hx
  rcases hx with rfl | rfl | rfl | rfl | rfl | rfl | rfl | rfl | rfl | rfl | rfl | rfl
  · exact ⟨'0', [], rfl, by decide, by decide⟩
  · exact ⟨'D', "EBUG".toList, rfl, by decide, by decide⟩
  · exact ⟨'0', [], rfl, by decide, by decide⟩
  · exact ⟨'0', [], rfl, by decide, by decide⟩
  · exact ⟨'0', [], rfl, by decide, by decide⟩
  · exact ⟨'\n', [], rfl, by decide, by decide⟩
  · exact absurd rfl hd
  · exact ⟨'0', [], rfl, by decide, by decide⟩
  · exact ⟨'0', [], rfl, by decide, by decide⟩
  · exact ⟨'\t', [], rfl, by decide, by decide⟩
  · exact ⟨'0', [], rfl, by decide, by decide⟩
  · exact ⟨'0', [], rfl, by decide, by decide⟩

theorem format_date {conv : Conversions} {format : String} {text : List Char}
    (h : (FormatItem.dateTime format).format conv .debug zeros = some text) :
    text = c_str (strftimeText conv 0 (c_str format.toList) 0) := by
  rw [FormatItem.format, strftime] at h
  split at h
  · exact (Option.some.inj h).symm
  · cases h

section Numbers

variable {conv : Conversions} (hconv : Numbers conv)

include hconv

/-- A number in front of a text without a brace. -/
theorem number_text {x : Char} (hx : x ∈ ['Y', 'm', 'd', 'H', 'M', 'S']) {time : UInt64}
    {cs : List Char} (hcs : '}' ∉ strftimeText conv time cs 0) :
    ∃ c text, strftimeText conv time ('%' :: x :: cs) 0 = c :: text ∧
      (c.isDigit = true ∨ c = '-') ∧ '}' ∉ c :: text := by
  obtain ⟨text, heq, hne, hdigits⟩ := hconv x hx cs time
  obtain ⟨c, text, rfl⟩ := List.exists_cons_of_ne_nil hne
  have hpercent : x ≠ '%' := by
    rintro rfl
    exact absurd hx (by decide)
  refine ⟨c, text ++ strftimeText conv time cs 0, ?_, hdigits c List.mem_cons_self, ?_⟩
  · rw [strftimeText, if_neg (by simp), if_neg (by simpa using hpercent), heq, strftimeText]
    rfl
  · rw [← List.cons_append, List.mem_append, not_or]
    refine ⟨fun hin => ?_, hcs⟩
    exact absurd (hdigits '}' hin) (by decide)

/-- A date in the default format starts with a number. -/
theorem default_text (time : UInt64) :
    ∃ c text, strftimeText conv time "%Y-%m-%d %H:%M:%S".toList 0 = c :: text ∧
      (c.isDigit = true ∨ c = '-') ∧ '}' ∉ c :: text := by
  have hnumber : ∀ x ∈ ['Y', 'm', 'd', 'H', 'M', 'S'], ∀ cs,
      '}' ∉ strftimeText conv time cs 0 → '}' ∉ strftimeText conv time ('%' :: x :: cs) 0 := by
    intro x hx cs hcs
    obtain ⟨c, text, heq, -, hno⟩ := number_text hconv hx hcs
    rw [heq]
    exact hno
  have hcopy : ∀ c cs, c ≠ '%' → c ≠ '}' →
      '}' ∉ strftimeText conv time cs 0 → '}' ∉ strftimeText conv time (c :: cs) 0 := by
    intro c cs hc hbrace hcs
    rw [strftimeText_char hc, List.mem_cons, not_or]
    exact ⟨Ne.symm hbrace, hcs⟩
  have hS := hnumber 'S' (by decide) [] List.not_mem_nil
  have hM := hnumber 'M' (by decide) _ (hcopy ':' _ (by decide) (by decide) hS)
  have hH := hnumber 'H' (by decide) _ (hcopy ':' _ (by decide) (by decide) hM)
  have hd := hnumber 'd' (by decide) _ (hcopy ' ' _ (by decide) (by decide) hH)
  have hm := hnumber 'm' (by decide) _ (hcopy '-' _ (by decide) (by decide) hd)
  exact number_text hconv (x := 'Y') (by decide) (hcopy '-' _ (by decide) (by decide) hm)

/-- The text of a directive without a format of its own does not start with its letter. -/
theorem head_text {x : Char} {format : Option (List Char)} {text : List Char} (hx : x ∈ letters)
    (hempty : x = 'd' → format.getD [] = [])
    (h : (Segment.directive x format).token.item.1.format conv .debug zeros = some text) :
    ∃ c rest, text = c :: rest ∧ c ≠ x ∧ '}' ∉ text := by
  by_cases hd : x = 'd'
  · subst hd
    have hitem : (Segment.directive 'd' format).token.item.1
        = .dateTime "%Y-%m-%d %H:%M:%S" := by
      rw [Segment.token, hempty rfl]
      rfl
    rw [hitem] at h
    obtain ⟨c, rest, htext, hc, hno⟩ := default_text hconv 0
    have hnull : c ≠ '\x00' := by
      rintro rfl
      exact absurd hc (by decide)
    have hfull : text = c_str (c :: rest) := by
      rw [format_date h, ← htext]
      rfl
    refine ⟨c, c_str rest, ?_, ?_, ?_⟩
    · rw [hfull, c_str, List.takeWhile_cons_of_pos (by simpa using hnull)]
      rfl
    · rintro rfl
      exact absurd hc (by decide)
    · rw [hfull]
      exact fun hin => hno (List.takeWhile_subset _ hin)
  · obtain ⟨c, rest, htext, hc, hno⟩ := letter_text conv hx hd format
    obtain rfl := Option.some.inj (h.symm.trans htext)
    exact ⟨c, rest, rfl, hc, hno⟩

/-- No directive of an escaped text writes a brace. -/
theorem plain_text {x : Char} {format : Option (List Char)} {text : List Char} (hx : x ∈ letters)
    (hformat : format = none ∨ ∃ g, '}' ∉ g ∧ format = some (escape g))
    (h : (Segment.directive x format).token.item.1.format conv .debug zeros = some text) :
    '}' ∉ text := by
  by_cases hempty : x = 'd' → format.getD [] = []
  · obtain ⟨-, -, -, -, hno⟩ := head_text hconv hx hempty h
    exact hno
  · obtain ⟨rfl, hne⟩ := Classical.not_imp.mp hempty
    rcases hformat with rfl | ⟨g, hg, rfl⟩
    · exact absurd rfl hne
    · -- the format is copied
      have hitem : (Segment.directive 'd' (some (escape g))).token.item.1
          = .dateTime (String.ofList (escape g)) := by
        have hnot : String.ofList (escape g) ≠ "" := by
          intro heq
          refine hne ?_
          simpa using congrArg String.toList heq
        show dateTimeFormat (String.ofList (escape g)) = _
        rw [dateTimeFormat, if_neg hnot]
      rw [hitem] at h
      rw [format_date h, String.toList_ofList, c_str_escape, strftimeText_escape]
      exact fun hin => hg (List.takeWhile_subset _ (List.takeWhile_subset _ hin))

end Numbers

/-! ## An escaped text and its output -/

/-- What an escaped text with a first run of `k + 1` characters `%` between `u` and `v` can write, where
`right` is what comes behind it. -/
inductive Outcome (conv : Conversions) (right : List Segment) (u : List Char) (k : Nat)
    (v : List Char) : List Char → Prop
  | nothing : Outcome conv right u k v []
  | literal {n : Nat} (hn : (v = [] ∧ n = 2 * k + 2) ∨ (v ≠ [] ∧ n = 2 * k + 1)) :
      Outcome conv right u k v (u ++ List.replicate n '%')
  | directive {x : Char} {gap w text out : List Char} {items : List FormatItem}
      (hv : v = x :: (gap ++ w)) (hplain : '}' ∉ text)
      (hdiffers : '}' ∈ gap ∨ ∃ c rest, text = c :: rest ∧ c ≠ x)
      (haccepted : Accepted (escape w ++ sourceOf right))
      (hitems : itemsIn (escape w ++ sourceOf right) = items ++ itemsOf right)
      (hout : formatItems conv .debug zeros items = some out) :
      Outcome conv right u k v (u ++ (List.replicate (2 * k + 1) '%' ++ (text ++ out)))

section Behind

variable {conv : Conversions} {right : List Segment} (hconv : Numbers conv) (hright : Valid right)
  (hopens : ∀ seg ∈ right.head?, seg.isRun = false)

theorem formatItems_literal {text : List Char} {items : List FormatItem} {out : List Char} :
    formatItems conv .debug zeros (.string (String.ofList text) :: items) = some out ↔
      ∃ rest, formatItems conv .debug zeros items = some rest ∧ out = text ++ rest := by
  rw [formatItems_cons_eq_some, FormatItem.format, String.toList_ofList]
  constructor
  · rintro ⟨t, rest, ht, hrest, rfl⟩
    obtain rfl := Option.some.inj ht
    exact ⟨rest, hrest, rfl⟩
  · rintro ⟨rest, hrest, rfl⟩
    exact ⟨text, rest, rfl, hrest, rfl⟩

include hconv hright hopens

theorem outcome {s out : List Char} {items : List FormatItem} (hs : '%' ∈ s)
    (haccepted : Accepted (escape s ++ sourceOf right))
    (hitems : itemsIn (escape s ++ sourceOf right) = items ++ itemsOf right)
    (hout : formatItems conv .debug zeros items = some out) :
    ∃ u k v, s = u ++ (List.replicate (k + 1) '%' ++ v) ∧ '%' ∉ u ∧ v.head? ≠ some '%' ∧
      Outcome conv right u k v out := by
  obtain ⟨u, k, v, hsplit, hu, hv, hcases⟩ := escaped_cases hright hopens hs haccepted
  refine ⟨u, k, v, hsplit, hu, hv, ?_⟩
  have hnothing : items = [] → Outcome conv right u k v out := by
    rintro rfl
    obtain rfl := Option.some.inj hout
    exact .nothing
  rcases hcases with ⟨rfl, heq⟩ | ⟨x, format, rest, hx, hne, hclose, hsource, hrest, heq⟩
  · -- one literal, in front of the pieces behind
    rw [heq] at hitems
    have hone : [_] = items := List.append_cancel_right hitems
    rw [← hone, formatItems_literal] at hout
    obtain ⟨rest, hnil, rfl⟩ := hout
    obtain rfl := Option.some.inj hnil
    rw [List.append_nil]
    exact .literal (.inl ⟨rfl, rfl⟩)
  · rw [heq] at hitems
    match items with
    | [] => exact hnothing rfl
    | [item] =>
        obtain ⟨rfl, -⟩ := List.cons.inj hitems
        rw [formatItems_literal] at hout
        obtain ⟨rest, hnil, rfl⟩ := hout
        obtain rfl := Option.some.inj hnil
        rw [List.append_nil]
        exact .literal (.inr ⟨hne, rfl⟩)
    | item :: item' :: items =>
        obtain ⟨rfl, htail⟩ := List.cons.inj hitems
        obtain ⟨rfl, hbehind⟩ := List.cons.inj htail
        rw [formatItems_literal] at hout
        obtain ⟨out, hwrites, rfl⟩ := hout
        obtain ⟨text, out, htext, hrestOut, rfl⟩ := formatItems_cons_eq_some.mp hwrites
        obtain ⟨t, rfl, hwhere⟩ := directive_behind hright hopens hne hv hclose hsource
        rcases hwhere with ⟨gap, w, rfl, rfl, hgap⟩ | ⟨g, hg, hbrace⟩
        · have hformat : format = none ∨ ∃ g, '}' ∉ g ∧ format = some (escape g) := by
            rcases hgap with ⟨hnone, -⟩ | ⟨g, hg, hsome, -⟩
            · exact .inl hnone
            · exact .inr ⟨g, hg, hsome⟩
          rw [List.append_assoc]
          refine .directive rfl (plain_text hconv hx hformat htext) ?_ hrest hbehind hrestOut
          rcases hgap with ⟨rfl, -⟩ | ⟨g, hg, -, rfl⟩
          · obtain ⟨c, rest, htext, hc, -⟩ := head_text hconv hx (fun _ => rfl) htext
            exact .inr ⟨c, rest, htext, hc⟩
          · exact .inl (by simp)
        · -- there are not enough pieces behind a brace of theirs
          have hfew := (scan_behind_brace hright hbrace hg).2 hopens
          rw [hbehind] at hfew
          change (items ++ itemsOf right).length < right.length at hfew
          rw [List.length_append, itemsOf, List.length_map] at hfew
          omega

/-- **No brace comes in.** -/
theorem brace_count {s out : List Char} {items : List FormatItem}
    (haccepted : Accepted (escape s ++ sourceOf right))
    (hitems : itemsIn (escape s ++ sourceOf right) = items ++ itemsOf right)
    (hout : formatItems conv .debug zeros items = some out) :
    out.count '}' ≤ s.count '}' := by
  induction hlen : s.length using Nat.strong_induction_on generalizing s out items with
  | _ len ih =>
    by_cases hs : '%' ∈ s
    · obtain ⟨u, k, v, rfl, -, -, houtcome⟩ :=
        outcome hconv hright hopens hs haccepted hitems hout
      have hrun : ∀ n, (List.replicate n '%').count '}' = 0 := by
        intro n
        rw [List.count_replicate, if_neg (by decide)]
      rw [List.count_append, List.count_append, hrun]
      cases houtcome with
      | nothing => exact Nat.zero_le _
      | literal hn =>
          rw [List.count_append, hrun]
          omega
      | @directive x gap w text out' items' hv hplain hdiffers haccepted' hitems' hout' =>
          have hshort : w.length < len := by
            subst hv
            simp only [List.length_append, List.length_cons, List.length_replicate] at hlen
            omega
          have hle := ih w.length hshort haccepted' hitems' hout' rfl
          rw [List.count_append, List.count_append, List.count_append, hrun,
            List.count_eq_zero.mpr hplain, hv, List.count_cons, List.count_append]
          omega
    · have hrun : Ends s right := ⟨s, 0, (List.append_nil s).symm, hs, .inl rfl⟩
      have hvalid := valid_behindRun hrun hopens hright
      rw [escape_self hs, ← sourceOf_behindRun, itemsIn_valid hvalid] at hitems
      by_cases hempty : s = []
      · rw [behindRun, if_pos hempty] at hitems
        obtain rfl : items = [] := List.self_eq_append_left.mp hitems
        obtain rfl := Option.some.inj hout
        exact Nat.zero_le _
      · rw [behindRun, if_neg hempty] at hitems
        have hone : [FormatItem.string (String.ofList s)] = items :=
          List.append_cancel_right hitems
        rw [← hone, formatItems_literal] at hout
        obtain ⟨rest, hnil, rfl⟩ := hout
        obtain rfl := Option.some.inj hnil
        rw [List.append_nil]

/-- **An escaped text that is written has no `%`.** -/
theorem no_percent {s : List Char} {items : List FormatItem}
    (haccepted : Accepted (escape s ++ sourceOf right))
    (hitems : itemsIn (escape s ++ sourceOf right) = items ++ itemsOf right)
    (hout : formatItems conv .debug zeros items = some s) : '%' ∉ s := by
  intro hs
  obtain ⟨u, k, v, hsplit, hu, hv, houtcome⟩ :=
    outcome hconv hright hopens hs haccepted hitems hout
  -- a run that is not too short is not too long, and `v` is behind it
  have hbehind : ∀ m y, k + 1 ≤ m → s = u ++ (List.replicate m '%' ++ y) → m = k + 1 ∧ y = v := by
    intro m y hle heq
    obtain ⟨n, rfl⟩ := Nat.exists_eq_add_of_le hle
    rw [hsplit, ← List.replicate_append_replicate (n := k + 1) (m := n), List.append_assoc] at heq
    have hrest := List.append_cancel_left (List.append_cancel_left heq)
    cases n with
    | zero => exact ⟨rfl, hrest.symm⟩
    | succ n => exact absurd (by rw [hrest]; rfl) hv
  generalize hs' : s = s' at houtcome
  cases houtcome with
  | nothing =>
      subst hs'
      cases hs
  | @literal n hn =>
      obtain ⟨hlen, hv'⟩ := hbehind n [] (by omega) (by rw [hs', List.append_nil])
      rcases hn with ⟨-, hn⟩ | ⟨hne, -⟩
      · omega
      · exact hne hv'.symm
  | @directive x gap w text out items' hv' hplain hdiffers haccepted' hitems' hout' =>
      obtain ⟨-, hall⟩ := hbehind (2 * k + 1) (text ++ out) (by omega) hs'
      rw [hv'] at hall
      rcases hdiffers with hgap | ⟨c, rest, rfl, hc⟩
      · -- the output has fewer braces
        have hle := brace_count hconv hright hopens haccepted' hitems' hout'
        have hmore := List.count_pos_iff.mpr hgap
        have hcount := congrArg (List.count '}') hall
        rw [List.count_append, List.count_eq_zero.mpr hplain, List.count_cons,
          List.count_append] at hcount
        omega
      · exact hc (List.cons.inj hall).1

end Behind

/-! ## Between two directives -/

theorem escape_head? (s : List Char) : (escape s).head? = s.head? := by
  cases s with
  | nil => rfl
  | cons c s =>
      by_cases hc : c = '%'
      · subst hc
        rfl
      · rw [escape_char hc]
        rfl

/-- A `%` is no part of the directive before it. -/
theorem closes_percent (format : Option (List Char)) (s cs : List Char) :
    Closes format (s ++ '%' :: cs) ↔ Closes format s := by
  cases format with
  | some f => exact Iff.rfl
  | none =>
      cases s with
      | nil =>
          constructor
          · intro _ c hc
            cases hc
          · intro _ c hc
            cases hc
            decide
      | cons c s => exact Iff.rfl

theorem closes_escape (format : Option (List Char)) (s : List Char) :
    Closes format (escape s) ↔ Closes format s := by
  cases format with
  | some f => exact Iff.rfl
  | none =>
      show Bounded _ ↔ Bounded _
      rw [Bounded, escape_head?, Bounded]

theorem sourceOf_append (left right : List Segment) :
    sourceOf (left ++ right) = sourceOf left ++ sourceOf right := List.flatMap_append

/-- Which directive comes behind does not matter. -/
theorem closes_before (f : Option (List Char)) (before after : List Segment) (x : Char)
    (format : Option (List Char)) :
    Closes f (sourceOf (before ++ .directive x format :: after)) ↔ Closes f (sourceOf before) := by
  have hsource : ∃ rest, sourceOf (.directive x format :: after) = '%' :: rest := by
    cases format with
    | none => exact ⟨_, rfl⟩
    | some g => exact ⟨_, rfl⟩
  obtain ⟨rest, hrest⟩ := hsource
  rw [sourceOf_append, hrest]
  exact closes_percent f (sourceOf before) rest

theorem itemsOf_append (left right : List Segment) :
    itemsOf (left ++ right) = itemsOf left ++ itemsOf right := List.map_append

/-- What comes in front of a directive starts with a `%`, unless it starts with a run. -/
theorem source_percent {before after : List Segment} {x : Char} {format : Option (List Char)}
    (h : Valid (before ++ .directive x format :: after))
    (hopens : ∀ seg ∈ before.head?, seg.isRun = false) (cs : List Char) :
    ∃ rest, sourceOf before ++ '%' :: cs = '%' :: rest := by
  match before, h with
  | [], _ => exact ⟨cs, rfl⟩
  | .run text :: before, _ => exact absurd (hopens (.run text) rfl) (by simp [Segment.isRun])
  | .directive y f :: before, ⟨hy, _, _⟩ =>
      obtain ⟨rest, hrest, -⟩ := directive_head hy f (sourceOf before ++ '%' :: cs)
      exact ⟨rest, by rw [← hrest, sourceOf_cons, List.append_assoc]⟩

section Before

variable {before after : List Segment} {x : Char} {format : Option (List Char)}

/-- The pieces in front of a directive are read whatever the directive is. -/
theorem scan_before (h : Valid (before ++ .directive x format :: after)) (nstr : List Char)
    (hstart : nstr = [] ∨ ∀ seg ∈ before.head?, seg.isRun = false) :
    ∃ ts nstr', ts ++ literal nstr' = literal nstr ++ before.map Segment.token ∧
      ∀ cs, cs.head? ≠ some '%' → scan (sourceOf before ++ '%' :: cs) 0 nstr
        = (ts ++ (scan ('%' :: cs) 0 nstr').1, (scan ('%' :: cs) 0 nstr').2) := by
  induction before generalizing nstr with
  | nil => exact ⟨[], nstr, by simp, fun cs _ => rfl⟩
  | cons seg before ih =>
      rw [List.cons_append] at h
      match seg, h with
      | .run text, ⟨hne, ⟨u, j, htext, hu, _⟩, hnext, hrest⟩ =>
          obtain rfl : nstr = [] := by
            refine hstart.resolve_right fun hno => ?_
            exact absurd (hno (.run text) rfl) (by simp [Segment.isRun])
          have hopens : ∀ seg ∈ before.head?, seg.isRun = false := by
            intro seg hseg
            refine hnext seg ?_
            rw [List.head?_append, Option.mem_def.mp hseg]
            rfl
          obtain ⟨ts, nstr', hts, hscan⟩ := ih hrest text (.inr hopens)
          refine ⟨ts, nstr', ?_, fun cs hcs => ?_⟩
          · rw [hts, literal, if_neg hne]
            rfl
          · rw [← hscan cs hcs]
            obtain ⟨rest, hpercent⟩ := source_percent hrest hopens cs
            rw [sourceOf_cons, List.append_assoc, hpercent, Segment.source, htext,
              List.append_assoc, scan_text hu j]
            rfl
      | .directive y f, ⟨hy, hclose, hrest⟩ =>
          obtain ⟨ts, nstr', hts, hscan⟩ := ih hrest [] (.inl rfl)
          refine ⟨literal nstr ++ (Segment.directive y f).token :: ts, nstr', ?_, fun cs hcs => ?_⟩
          · rw [List.append_assoc, List.cons_append, hts]
            rfl
          · have hclose' : Closes f (sourceOf before ++ '%' :: cs) := by
              rw [closes_percent]
              exact (closes_before f before after x format).mp hclose
            rw [sourceOf_cons, List.append_assoc, scan_piece hy hclose', hscan cs hcs]
            simp

/-- The items of a pattern with another directive in the place of the one. -/
theorem items_behind (h : Valid (before ++ .directive x format :: after)) {y : Char}
    {f : Option (List Char)} {rest : List Char} (hy : y ∈ letters) (hclose : Closes f rest) :
    (Accepted (sourceOf before ++ ((Segment.directive y f).source ++ rest)) → Accepted rest) ∧
      itemsIn (sourceOf before ++ ((Segment.directive y f).source ++ rest))
        = itemsOf before ++ (Segment.directive y f).token.item.1 :: itemsIn rest := by
  obtain ⟨ts, nstr, hts, hscan⟩ := scan_before h [] (.inl rfl)
  obtain ⟨cs, hcs, hhead⟩ := directive_head hy f rest
  have hgo := hscan cs hhead
  rw [← hcs, scan_piece hy hclose] at hgo
  dsimp only at hgo
  rw [← List.append_assoc ts, hts] at hgo
  refine ⟨?_, ?_⟩
  · rintro ⟨hno, hitems⟩
    rw [hgo] at hno hitems
    refine ⟨hno, fun t ht => hitems t ?_⟩
    exact List.mem_append_right _ (List.mem_cons_of_mem _ ht)
  · rw [itemsIn, hgo]
    simp [itemsOf, itemsIn, literal]

/-- The pieces behind a directive may be others. -/
theorem Valid.replace {after' : List Segment} (h : Valid (before ++ .directive x format :: after))
    (hclose : Closes format (sourceOf after')) (hvalid : Valid after') :
    Valid (before ++ .directive x format :: after') := by
  induction before with
  | nil => exact ⟨h.1, hclose, hvalid⟩
  | cons seg before ih =>
      rw [List.cons_append] at h ⊢
      match seg, h with
      | .run text, ⟨hne, ⟨u, j, htext, hu, _⟩, hnext, hrest⟩ =>
          refine ⟨hne, ⟨u, j, htext, hu, .inr (by simp)⟩, ?_, ih hrest⟩
          rw [List.head?_append] at hnext ⊢
          exact hnext
      | .directive y f, ⟨hy, hend, hrest⟩ =>
          refine ⟨hy, ?_, ih hrest⟩
          rw [closes_before]
          exact (closes_before f before after x format).mp hend

theorem Valid.behind (h : Valid (before ++ after)) : Valid after := by
  induction before with
  | nil => exact h
  | cons seg before ih =>
      rw [List.cons_append] at h
      match seg, h with
      | .run text, ⟨_, _, _, hrest⟩ => exact ih hrest
      | .directive y f, ⟨_, _, hrest⟩ => exact ih hrest

end Before

/-- The pattern `escape s` is without error, and what is formatted with it is `s`. -/
def Escapes (conv : Conversions) (s : List Char) : Prop :=
  (LogFormatter.new (String.ofList (escape s))).m_error = false ∧ ∀ level event,
    (LogFormatter.new (String.ofList (escape s))).format conv level event = some s

/-- With `escape s` between the texts that are between `left` and `right`, the pattern is without
error, its items are still those of `left` and `right`, and between them it writes the texts and `s`. -/
def Inserts (conv : Conversions) (left : List Segment) (text s text' : List Char)
    (right : List Segment) : Prop :=
  let formatter := LogFormatter.new
    (String.ofList (sourceOf left ++ (text ++ escape s ++ text') ++ sourceOf right))
  formatter.m_error = false ∧
    ∃ items, formatter.m_items = itemsOf left ++ items ++ itemsOf right ∧
      ∀ level event, formatItems conv level event items = some (text ++ s ++ text')

section Inserts

variable {conv : Conversions} {before after right : List Segment} {x : Char}
  {format : Option (List Char)} {s : List Char}

/-- A directive in front of an escaped text ends where it ends in front of the text. -/
theorem closes_behind (hright : Valid right) (hopens : ∀ seg ∈ right.head?, seg.isRun = false) :
    Closes format (escape s ++ sourceOf right) ↔ Closes format s := by
  rw [← closes_escape format s]
  rcases hright.next hopens with rfl | ⟨rest, hsource, -⟩
  · rw [sourceOf, List.flatMap_nil, List.append_nil]
  · rw [hsource]
    exact closes_percent format (escape s) rest

/-- A directive without a format does not go on into what is inserted. -/
theorem not_continued (hconv : Numbers conv) (h : Valid (before ++ .directive x none :: after))
    (hright : Valid right) (hopens : ∀ seg ∈ right.head?, seg.isRun = false)
    {items : List FormatItem} {c : Char}
    (haccepted : Accepted (sourceOf before ++ '%' :: x :: c :: (escape s ++ sourceOf right)))
    (hitems : itemsIn (sourceOf before ++ '%' :: x :: c :: (escape s ++ sourceOf right))
      = itemsOf before ++ (Segment.directive x none).token.item.1 :: (items ++ itemsOf right))
    (hout : formatItems conv .debug zeros items = some (c :: s)) : continues c = false := by
  obtain ⟨hx, -, -⟩ := h.behind
  obtain ⟨-, hpercent, -⟩ := letter_continues x hx
  have hhead : (x :: c :: (escape s ++ sourceOf right)).head? ≠ some '%' := by simpa using hpercent
  obtain ⟨ts, nstr, -, hscan⟩ := scan_before h [] (.inl rfl)
  obtain ⟨hno, hnone⟩ := haccepted
  rw [hscan _ hhead] at hno hnone
  obtain ⟨y, g, rest, hy, hclose, heq⟩ := directive_of_scan hhead hno
    (fun t ht => hnone t (List.mem_append_right _ ht))
  cases g with
  | none =>
      obtain ⟨-, hrest⟩ := List.cons.inj (List.cons.inj heq).2
      exact hclose c (congrArg List.head? hrest).symm
  | some f =>
      -- a brace, and the format is behind it
      exfalso
      obtain ⟨rfl, hrest⟩ := List.cons.inj (List.cons.inj heq).2
      obtain ⟨rfl, hbrace⟩ := List.cons.inj hrest
      change escape s ++ sourceOf right = f ++ ['}'] ++ rest at hbrace
      rw [List.append_assoc, List.singleton_append] at hbrace
      obtain ⟨hrestAccepted, hlist⟩ := items_behind h hy hclose
      rw [← heq] at hrestAccepted hlist
      rw [hlist] at hitems
      have hbehind := (List.cons.inj (List.append_cancel_left hitems)).2
      rcases brace_split hclose hbrace with ⟨g, w, rfl, -, -, rfl⟩ | ⟨g, hsource, hg⟩
      · have hle := brace_count hconv hright hopens (hrestAccepted ⟨by rw [hscan _ hhead]; exact hno,
          by rw [hscan _ hhead]; exact hnone⟩) hbehind hout
        rw [List.count_cons, List.count_append, List.count_cons_self] at hle
        omega
      · have hfew := (scan_behind_brace hright hg hsource).2 hopens
        rw [hbehind, List.length_append, itemsOf, List.length_map] at hfew
        omega

/-- What is inserted has no `%`, and the directive before it ends where it ended. -/
theorem inserted_only (hconv : Numbers conv) (h : Valid (before ++ .directive x format :: after))
    (hright : Valid right) (hopens : ∀ seg ∈ right.head?, seg.isRun = false)
    {items : List FormatItem}
    (haccepted : Accepted (sourceOf before ++
      ((Segment.directive x format).source ++ (escape s ++ sourceOf right))))
    (hitems : itemsIn (sourceOf before ++
        ((Segment.directive x format).source ++ (escape s ++ sourceOf right)))
      = itemsOf before ++ (Segment.directive x format).token.item.1 :: (items ++ itemsOf right))
    (hout : formatItems conv .debug zeros items = some s) : '%' ∉ s ∧ Closes format s := by
  obtain ⟨hx, hend, -⟩ := h.behind
  have hclose : Closes format s := by
    match format, s with
    | some f, s => exact hend
    | none, [] => exact fun c hc => by cases hc
    | none, c :: s =>
        intro d hd
        cases hd
        by_cases hc : c = '%'
        · subst hc
          decide
        · rw [escape_char hc] at haccepted hitems
          exact not_continued hconv h hright hopens haccepted hitems hout
  obtain ⟨hrest, hlist⟩ := items_behind h hx ((closes_behind hright hopens).mpr hclose)
  rw [hlist] at hitems
  have hbehind := (List.cons.inj (List.append_cancel_left hitems)).2
  exact ⟨no_percent hconv hright hopens (hrest haccepted) hbehind hout, hclose⟩

/-- A text without `%`, between pieces. -/
theorem behindRun_append (text : List Char) (segs : List Segment) :
    behindRun text segs = behindRun text [] ++ segs := by
  unfold behindRun
  split
  · rfl
  · rfl

theorem formatItems_run (level : Level) (event : LogEvent) (text : List Char) :
    formatItems conv level event (itemsOf (behindRun text [])) = some text := by
  unfold behindRun
  split
  · rename_i hempty
    rw [hempty]
    rfl
  · show formatItems conv level event [.string (String.ofList text)] = _
    rw [formatItems, FormatItem.format, String.toList_ofList]
    simp [formatItems]

theorem opens_directive (y : Char) (f : Option (List Char)) (after : List Segment) :
    ∀ seg ∈ (Segment.directive y f :: after).head?, seg.isRun = false := by
  intro seg hseg
  cases hseg
  rfl

theorem opens_nil : ∀ seg ∈ ([] : List Segment).head?, seg.isRun = false := by
  intro seg hseg
  cases hseg

/-- The texts on either side are a part of what is inserted. -/
theorem inserted_pattern {text text' : List Char} (htext : '%' ∉ text ++ text')
    (before right : List Segment) (x : Char) (format : Option (List Char)) (s : List Char) :
    sourceOf (before ++ [.directive x format]) ++ (text ++ escape s ++ text') ++ sourceOf right
      = sourceOf before ++ ((Segment.directive x format).source ++
          (escape (text ++ s ++ text') ++ sourceOf right)) := by
  rw [List.mem_append, not_or] at htext
  have hone : sourceOf [.directive x format] = (Segment.directive x format).source :=
    List.append_nil _
  rw [escape_append, escape_append, escape_self htext.1, escape_self htext.2, sourceOf_append, hone]
  simp only [List.append_assoc]

/-- A text without `%` may stand between a directive that ends before it and another. -/
theorem inserted_valid (h : Valid (before ++ .directive x format :: after)) (hright : Valid right)
    (hopens : ∀ seg ∈ right.head?, seg.isRun = false) (hs : '%' ∉ s) (hclose : Closes format s) :
    Valid (before ++ .directive x format :: behindRun s right) := by
  refine h.replace ?_ (valid_behindRun ⟨s, 0, (List.append_nil s).symm, hs, .inl rfl⟩ hopens hright)
  rw [sourceOf_behindRun, ← escape_self hs]
  rw [← closes_behind hright hopens] at hclose
  exact hclose

/-- A text is escaped by doubling its `%` iff it has none. -/
theorem escapes_self (hconv : Numbers conv) (s : List Char) : Escapes conv s ↔ '%' ∉ s := by
  constructor
  · rintro ⟨hno, hout⟩
    obtain ⟨haccepted, hitems⟩ := new_accepted (escape s)
    have hnil : escape s ++ sourceOf [] = escape s := List.append_nil _
    have hwrites := hout .debug zeros
    rw [LogFormatter.format, hitems] at hwrites
    refine no_percent hconv (show Valid [] from trivial) opens_nil ?_ ?_ hwrites
    · rw [hnil]
      exact haccepted.mp hno
    · rw [hnil]
      exact (List.append_nil _).symm
  · intro hs
    have hvalid : Valid (behindRun s []) :=
      valid_behindRun ⟨s, 0, (List.append_nil s).symm, hs, .inl rfl⟩ opens_nil trivial
    have hsource : sourceOf (behindRun s []) = (String.ofList (escape s)).toList := by
      rw [String.toList_ofList, escape_self hs, sourceOf_behindRun]
      exact List.append_nil s
    obtain ⟨-, hno, hitems⟩ := new_valid hvalid hsource
    refine ⟨hno, fun level event => ?_⟩
    rw [LogFormatter.format, hitems]
    exact formatItems_run level event s

/-- A text can be inserted behind a directive iff it has no `%` and the directive ends before it. -/
theorem inserts_between (hconv : Numbers conv) (h : Valid (before ++ .directive x format :: after))
    (hright : Valid right) (hopens : ∀ seg ∈ right.head?, seg.isRun = false) {text text' : List Char}
    (htext : '%' ∉ text ++ text') :
    Inserts conv (before ++ [.directive x format]) text s text' right ↔
      '%' ∉ s ∧ Closes format (text ++ s ++ text') := by
  have hmem : '%' ∉ text ++ s ++ text' ↔ '%' ∉ s := by
    rw [List.mem_append, not_or] at htext
    rw [List.mem_append, List.mem_append]
    tauto
  have hpattern := inserted_pattern htext before right x format s
  rw [← hmem]
  constructor
  · rintro ⟨hno, items, hitems, hout⟩
    obtain ⟨haccepted, hlist⟩ := new_accepted (sourceOf (before ++ [.directive x format])
      ++ (text ++ escape s ++ text') ++ sourceOf right)
    rw [hlist, hpattern] at hitems
    rw [haccepted, hpattern] at hno
    refine inserted_only hconv h hright hopens hno ?_ (hout .debug zeros)
    rw [hitems, itemsOf_append, List.append_assoc, List.append_assoc]
    rfl
  · rintro ⟨hs, hclose⟩
    have hvalid := inserted_valid h hright hopens hs hclose
    have hsource : sourceOf (before ++ .directive x format :: behindRun (text ++ s ++ text') right)
        = (String.ofList (sourceOf (before ++ [.directive x format])
          ++ (text ++ escape s ++ text') ++ sourceOf right)).toList := by
      rw [String.toList_ofList, hpattern, escape_self hs, sourceOf_append, sourceOf_cons,
        sourceOf_behindRun]
    obtain ⟨-, hno, hitems⟩ := new_valid hvalid hsource
    refine ⟨hno, itemsOf (behindRun (text ++ s ++ text') []), ?_, ?_⟩
    · have hpieces : before ++ .directive x format :: behindRun (text ++ s ++ text') right
          = before ++ [.directive x format] ++ behindRun (text ++ s ++ text') [] ++ right := by
        rw [behindRun_append _ right]
        simp only [List.append_assoc, List.cons_append, List.nil_append]
      rw [hitems, hpieces, itemsOf_append, itemsOf_append]
    · exact fun level event => formatItems_run level event _

end Inserts

/-- **The escape sequence**: a text is escaped by doubling its `%` iff it has none; and it can be
inserted in this way between two directives iff it has none and the first of them ends before it. -/
theorem escaped_iff {conv : Conversions} (hconv : Numbers conv) :
    (∀ s, Escapes conv s ↔ '%' ∉ s) ∧
      ∀ before x format text text' y format' after, '%' ∉ text ++ text' →
        Valid (before ++ .directive x format ::
          behindRun (text ++ text') (.directive y format' :: after)) →
        ∀ s, Inserts conv (before ++ [.directive x format]) text s text'
            (.directive y format' :: after) ↔
          '%' ∉ s ∧ Closes format (text ++ s ++ text') := by
  refine ⟨escapes_self hconv, ?_⟩
  intro before x format text text' y format' after htext h s
  have hbehind : Valid (behindRun (text ++ text') (.directive y format' :: after)) := h.behind.2.2
  rw [behindRun_append] at hbehind
  exact inserts_between hconv h hbehind.behind (opens_directive y format' after) htext

/-- Year, month and day, from the days since the epoch. -/
def civil (days : Nat) : Nat × Nat × Nat :=
  let z := days + 719468
  let doe := z % 146097
  let yoe := (doe - doe / 1460 + doe / 36524 - doe / 146096) / 365
  let doy := doe - (365 * yoe + yoe / 4 - yoe / 100)
  let mp := (5 * doy + 2) / 153
  let month := if mp < 10 then mp + 3 else mp - 9
  (yoe + z / 146097 * 400 + if month ≤ 2 then 1 else 0, month, doy - (153 * mp + 2) / 5 + 1)

example : civil 0 = (1970, 1, 1) ∧ civil 19782 = (2024, 2, 29) := by decide

/-- A number of two digits or more. -/
def padded (n : Nat) : List Char := if n < 10 then '0' :: Nat.toDigits 10 n else Nat.toDigits 10 n

/-- The conversions of the default format, in UTC. -/
def utc : Conversions
  | 'Y' :: _, time => (Nat.toDigits 10 (civil (time.toNat / 86400)).1, 1)
  | 'm' :: _, time => (padded (civil (time.toNat / 86400)).2.1, 1)
  | 'd' :: _, time => (padded (civil (time.toNat / 86400)).2.2, 1)
  | 'H' :: _, time => (padded (time.toNat / 3600 % 24), 1)
  | 'M' :: _, time => (padded (time.toNat / 60 % 60), 1)
  | 'S' :: _, time => (padded (time.toNat % 60), 1)
  | _, _ => ([], 0)

theorem padded_digits (n : Nat) :
    padded n ≠ [] ∧ ∀ c ∈ padded n, c.isDigit = true ∨ c = '-' := by
  have hdigits : ∀ c ∈ Nat.toDigits 10 n, c.isDigit = true ∨ c = '-' := fun c hc =>
    .inl (Nat.isDigit_of_mem_toDigits (by omega) (by omega) hc)
  unfold padded
  split
  · refine ⟨List.cons_ne_nil _ _, fun c hc => ?_⟩
    rcases List.mem_cons.mp hc with rfl | hc
    · exact .inl rfl
    · exact hdigits c hc
  · exact ⟨Nat.toDigits_ne_nil, hdigits⟩

theorem numbers_utc : Numbers utc := by
  intro x hx cs time
  simp only [List.mem_cons, List.not_mem_nil, or_false] at hx
  rcases hx with rfl | rfl | rfl | rfl | rfl | rfl
  · refine ⟨_, rfl, Nat.toDigits_ne_nil, fun c hc => ?_⟩
    exact .inl (Nat.isDigit_of_mem_toDigits (by omega) (by omega) hc)
  all_goals exact ⟨_, rfl, padded_digits _⟩

/-- `[load] ` between a date and a level, but no `100%`. -/
theorem escaped_iff_load :
    (¬ Escapes utc "100%".toList ∧ Escapes utc "[load]".toList) ∧
      Inserts utc [.directive 'd' (some "%H:%M".toList)] " [".toList "load".toList "] ".toList
        [.directive 'p' none] := by
  obtain ⟨hescapes, hinserts⟩ := escaped_iff numbers_utc
  have hlevel : Valid [.directive 'p' none] := by
    refine ⟨by decide, fun c hc => ?_, trivial⟩
    cases hc
  refine ⟨⟨fun h => ?_, (hescapes _).mpr (by decide)⟩, ?_⟩
  · exact (hescapes _).mp h (by decide)
  · refine (hinserts [] 'd' (some "%H:%M".toList) " [".toList "] ".toList 'p' none [] (by decide) ?_
      "load".toList).mpr ⟨by decide, ?_⟩
    · refine ⟨by decide, ?_, valid_behindRun ⟨" [] ".toList, 0, rfl, by decide, .inl rfl⟩
        (opens_directive 'p' none []) hlevel⟩
      show '}' ∉ _
      decide
    · show '}' ∉ _
      decide

/-- `%` comes back as an error, and `%n` as a `%` and a line break. -/
theorem percent_not_escaped : ¬ Escapes utc ['%'] ∧ ¬ Escapes utc ['%', 'n'] := by
  refine ⟨fun h => ?_, fun h => ?_⟩
  · exact absurd h.1 (by decide)
  · exact absurd (h.2 .debug zeros) (by decide)

end Sylar.Log
