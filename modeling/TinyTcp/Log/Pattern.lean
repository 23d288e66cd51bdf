/-
TinyTcp.Log.Pattern — writing a list of items as a pattern, and what
`LogFormatter::init` makes of it.

A pattern item is a literal, a bare directive `%x` or a directive `%x{f}`.
`write` puts them one after another and doubles every `%` of a literal.
`reads_iff` says when the scanner gets the items back: for every list of
items that can be told apart (`WellFormed`), exactly if no literal has a
`%`. The branch of the scanner for `%%` appends one `%` and goes on with
the second one, which then starts a directive of its own.

## How the proof goes

The written pattern is followed item by item. `Yields` says what a state of
the outer loop still makes of its suffix; for a literal without `%` and for
a directive the step is an equation of `initLoop`, so the claim about the
whole list is the claim about the rest. A literal with `%` is cut at its
first run of them: the loop appends all of the doubled run but one
character, and the last one opens a directive behind a literal that is not
the one written, or at a place where none was written.
-/
import TinyTcp.Log.Formatter
import Mathlib.Data.List.Chain

namespace TinyTcp.Log

/-! ## Patterns -/

/-- The key of `s_format_items`. -/
def ItemClass.letter : ItemClass → UInt8
  | .message => ch 'm'
  | .level => ch 'p'
  | .elapse => ch 'r'
  | .name => ch 'c'
  | .threadId => ch 't'
  | .newLine => ch 'n'
  | .dateTime => ch 'd'
  | .filename => ch 'f'
  | .line => ch 'l'
  | .tab => ch 'T'
  | .threadName => ch 'N'

inductive PatternItem where
  | literal (s : Str)
  | bare (x : ItemClass)
  | formatted (x : ItemClass) (f : Str)
  deriving DecidableEq

def escape (s : Str) : Str := s.flatMap fun c => if c = ch '%' then [ch '%', ch '%'] else [c]

def PatternItem.write : PatternItem → Str
  | .literal s => escape s
  | .bare x => [ch '%', x.letter]
  | .formatted x f => ch '%' :: x.letter :: ch '{' :: (f ++ [ch '}'])

def write (items : List PatternItem) : Str := items.flatMap PatternItem.write

/-- The item of `m_items` that is meant. -/
def PatternItem.made : PatternItem → FormatItem
  | .literal s => .string s
  | .bare x => .made x []
  | .formatted x f => .made x f

def PatternItem.Valid : PatternItem → Prop
  | .literal s => s ≠ []
  | .bare _ => True
  | .formatted _ f => ch '}' ∉ f

/-- What ends the name of a bare directive. -/
def Plain (c : UInt8) : Prop := ¬isalpha c ∧ c ≠ ch '{' ∧ c ≠ ch '}'

/-- Two literals are one; and one behind a bare directive does not go on with it. -/
def Follows : PatternItem → PatternItem → Prop
  | .literal _, .literal _ => False
  | .bare _, .literal s => ∀ c ∈ s.head?, Plain c ∧ c ≠ ch '%'
  | _, _ => True

structure WellFormed (items : List PatternItem) : Prop where
  valid : ∀ i ∈ items, i.Valid
  follows : items.IsChain Follows

/-- The formatter has these items, and reports no error. -/
structure Reads (f : LogFormatter) (items : List PatternItem) : Prop where
  error : f.error = false
  items : f.items = items.map PatternItem.made

/-! ## Letters and literals -/

theorem lookup_letter (x : ItemClass) : formatItems.lookup [x.letter] = some x := by
  cases x <;> decide

theorem isalpha_letter (x : ItemClass) : isalpha x.letter = true := by
  cases x <;> decide

theorem letter_ne_percent (x : ItemClass) : x.letter ≠ ch '%' := by
  cases x <;> decide

theorem letter_ne_lbrace (x : ItemClass) : x.letter ≠ ch '{' := by
  cases x <;> decide

theorem plain_percent : Plain (ch '%') := by
  unfold Plain
  decide

@[simp] theorem escape_nil : escape [] = [] := rfl

@[simp] theorem escape_cons (c : UInt8) (s : Str) :
    escape (c :: s) = (if c = ch '%' then [ch '%', ch '%'] else [c]) ++ escape s := rfl

theorem escape_append (s t : Str) : escape (s ++ t) = escape s ++ escape t := by
  simp [escape]

theorem escape_of_not_mem {s : Str} (hs : ch '%' ∉ s) : escape s = s := by
  induction s with
  | nil => rfl
  | cons c s ih =>
    rw [List.mem_cons, not_or] at hs
    rw [escape_cons, if_neg (Ne.symm hs.1), ih hs.2]
    rfl

theorem escape_replicate (k : Nat) :
    escape (List.replicate k (ch '%')) = List.replicate (2 * k) (ch '%') := by
  induction k with
  | zero => rfl
  | succ k ih => simp [List.replicate_succ, ih, Nat.mul_succ]

@[simp] theorem write_nil : write [] = [] := rfl

@[simp] theorem write_cons (i : PatternItem) (items : List PatternItem) :
    write (i :: items) = i.write ++ write items := rfl

/-! ## Equations of the scanner -/

theorem initLoop_nil (nstr : Str) (vec : List Triple) (error : Bool) :
    initLoop nstr vec error [] = (flush vec nstr, error) := by
  rw [initLoop]

theorem initLoop_char {c : UInt8} (hc : c ≠ ch '%') (nstr : Str) (vec : List Triple) (error : Bool)
    (p : Str) : initLoop nstr vec error (c :: p) = initLoop (nstr ++ [c]) vec error p := by
  rw [initLoop, if_pos hc]

theorem initLoop_percent_percent (nstr : Str) (vec : List Triple) (error : Bool) (p : Str) :
    initLoop nstr vec error (ch '%' :: ch '%' :: p) =
      initLoop (nstr ++ [ch '%']) vec error (ch '%' :: p) := by
  rw [initLoop, if_neg (by simp), if_pos (by simp)]

theorem initLoop_directive {p name fmt rest : Str} (hp : p.head? ≠ some (ch '%'))
    (hscan : scanName [] p = .directive name fmt rest) (nstr : Str) (vec : List Triple)
    (error : Bool) :
    initLoop nstr vec error (ch '%' :: p) =
      initLoop [] (flush vec nstr ++ [⟨name, fmt, 1⟩]) error rest := by
  rw [initLoop, if_neg (by simp), if_neg hp]
  split
  · rename_i name' fmt' rest' h
    rw [hscan] at h
    cases h
    rfl
  · rename_i h
    rw [hscan] at h
    cases h

theorem initLoop_unclosed {p : Str} (hp : p.head? ≠ some (ch '%')) (hscan : scanName [] p = .unclosed)
    (nstr : Str) (vec : List Triple) (error : Bool) :
    initLoop nstr vec error (ch '%' :: p) =
      initLoop nstr (vec ++ [⟨str "<<pattern-error>>", [], 0⟩]) true p := by
  rw [initLoop, if_neg (by simp), if_neg hp]
  split
  · rename_i h
    rw [hscan] at h
    cases h
  · rfl

theorem initLoop_literal {s : Str} (hs : ch '%' ∉ s) (nstr : Str) (vec : List Triple) (error : Bool)
    (p : Str) : initLoop nstr vec error (s ++ p) = initLoop (nstr ++ s) vec error p := by
  induction s generalizing nstr with
  | nil => simp
  | cons c s ih =>
    rw [List.mem_cons, not_or] at hs
    rw [List.cons_append, initLoop_char (Ne.symm hs.1), ih hs.2, List.append_assoc]
    rfl

/-- Of a run of `%` the last one is not taken as a character. -/
theorem initLoop_run (k : Nat) (nstr : Str) (vec : List Triple) (error : Bool) (p : Str) :
    initLoop nstr vec error (List.replicate (k + 1) (ch '%') ++ p) =
      initLoop (nstr ++ List.replicate k (ch '%')) vec error (ch '%' :: p) := by
  induction k generalizing nstr with
  | zero => simp
  | succ k ih =>
    have hstep := initLoop_percent_percent nstr vec error (List.replicate k (ch '%') ++ p)
    have hrest := ih (nstr ++ [ch '%'])
    simp only [List.replicate_succ, List.cons_append, List.append_assoc, List.nil_append] at hrest ⊢
    rw [hstep, hrest]

theorem scanFormat_brace {f : Str} (hf : ch '}' ∉ f) (name taken p : Str) :
    scanFormat name taken (f ++ ch '}' :: p) = .directive name (taken ++ f) p := by
  induction f generalizing taken with
  | nil => simp [scanFormat]
  | cons c f ih =>
    rw [List.mem_cons, not_or] at hf
    rw [List.cons_append, scanFormat, if_neg (Ne.symm hf.1), ih hf.2, List.append_assoc]
    rfl

/-- The name of a bare directive ends at the end of the pattern or at a plain character. -/
theorem scanName_bare (x : ItemClass) {p : Str} (hp : ∀ c ∈ p.head?, Plain c) :
    scanName [] (x.letter :: p) = .directive [x.letter] [] p := by
  have hletter : ¬(¬isalpha x.letter ∧ x.letter ≠ ch '{' ∧ x.letter ≠ ch '}') := by
    simp [isalpha_letter x]
  rw [scanName, if_neg hletter, if_neg (letter_ne_lbrace x)]
  cases p with
  | nil => simp
  | cons c p =>
    have hplain : ¬isalpha c ∧ c ≠ ch '{' ∧ c ≠ ch '}' := hp c rfl
    rw [if_neg (List.cons_ne_nil c p), scanName, if_pos hplain]
    rfl

theorem scanName_formatted (x : ItemClass) {f : Str} (hf : ch '}' ∉ f) (p : Str) :
    scanName [] (x.letter :: ch '{' :: (f ++ ch '}' :: p)) = .directive [x.letter] f p := by
  have hletter : ¬(¬isalpha x.letter ∧ x.letter ≠ ch '{' ∧ x.letter ≠ ch '}') := by
    simp [isalpha_letter x]
  rw [scanName, if_neg hletter, if_neg (letter_ne_lbrace x), if_neg (List.cons_ne_nil _ _),
    scanName, if_neg (by simp), if_pos rfl, scanFormat_brace hf]
  rfl

/-! ## What is left to be made -/

/-- The triples make these items, and no error. -/
def Makes (vec : List Triple) (made : List FormatItem) : Prop :=
  vec.map (fun i => (makeItem i).1) = made ∧ ∀ i ∈ vec, (makeItem i).2 = false

/-- The end of the first pass makes these items, and no error. -/
def Yields (r : List Triple × Bool) (made : List FormatItem) : Prop := r.2 = false ∧ Makes r.1 made

theorem reads_create_iff (items : List PatternItem) :
    Reads (LogFormatter.create (write items)) items ↔
      Yields (initLoop [] [] false (write items)) (items.map PatternItem.made) := by
  constructor
  · rintro ⟨herror, hitems⟩
    simp only [LogFormatter.create, makeItems, Bool.or_eq_false_iff, List.any_eq_false,
      Bool.not_eq_true] at herror
    exact ⟨herror.1, hitems, herror.2⟩
  · rintro ⟨herror, hitems, hnone⟩
    refine ⟨?_, hitems⟩
    simp only [LogFormatter.create, makeItems, Bool.or_eq_false_iff, List.any_eq_false,
      Bool.not_eq_true]
    exact ⟨herror, hnone⟩

@[simp] theorem makeItem_literal (s fmt : Str) : makeItem ⟨s, fmt, 0⟩ = (.string s, false) := rfl

/-- The items of a pending literal. -/
def pending (nstr : Str) : List FormatItem := if nstr = [] then [] else [.string nstr]

theorem Makes.append {vec more : List Triple} {made moreMade : List FormatItem} (h : Makes vec made)
    (h' : Makes more moreMade) : Makes (vec ++ more) (made ++ moreMade) := by
  refine ⟨by rw [List.map_append, h.1, h'.1], ?_⟩
  intro i hi
  rcases List.mem_append.mp hi with hi | hi
  · exact h.2 i hi
  · exact h'.2 i hi

theorem Makes.flush {vec : List Triple} {made : List FormatItem} (h : Makes vec made) (nstr : Str) :
    Makes (flush vec nstr) (made ++ pending nstr) := by
  unfold Log.flush pending
  split
  · simpa using h
  · exact h.append ⟨by simp, by simp⟩

theorem makes_directive (x : ItemClass) (fmt : Str) :
    Makes [⟨[x.letter], fmt, 1⟩] [.made x fmt] := by
  simp [Makes, makeItem, lookup_letter]

/-- `vec` only grows, and an error stays. -/
theorem initLoop_grows (nstr : Str) (vec : List Triple) (error : Bool) (p : Str) :
    (∃ more, (initLoop nstr vec error p).1 = vec ++ more) ∧
      (error = true → (initLoop nstr vec error p).2 = true) := by
  have hflush : ∀ (vec : List Triple) (nstr : Str), ∃ more, flush vec nstr = vec ++ more := by
    intro vec nstr
    unfold flush
    split
    · exact ⟨[], by simp⟩
    · exact ⟨_, rfl⟩
  induction nstr, vec, error, p using initLoop.induct with
  | case1 nstr vec error =>
    rw [initLoop_nil]
    exact ⟨hflush vec nstr, id⟩
  | case2 nstr vec error c p hc ih => rwa [initLoop_char hc]
  | case3 nstr vec error c p hc hp ih =>
    rwa [initLoop, if_neg hc, if_pos hp]
  | case4 nstr vec error c p hc hp name fmt rest hscan _ ih =>
    rw [not_not.mp hc, initLoop_directive hp hscan]
    obtain ⟨⟨more, hmore⟩, herror⟩ := ih
    obtain ⟨lit, hlit⟩ := hflush vec nstr
    refine ⟨⟨lit ++ [⟨name, fmt, 1⟩] ++ more, ?_⟩, herror⟩
    rw [hmore, hlit]
    simp only [List.append_assoc]
  | case5 nstr vec error c p hc hp hscan ih =>
    rw [not_not.mp hc, initLoop_unclosed hp hscan]
    obtain ⟨⟨more, hmore⟩, herror⟩ := ih
    refine ⟨⟨_ :: more, by rw [hmore, List.append_assoc]; rfl⟩, fun _ => herror rfl⟩

/-! ## A literal with a percent sign -/

/-- A literal with `%`, cut at its first run of them. -/
theorem exists_run {s : Str} (hs : ch '%' ∈ s) : ∃ a j b, ch '%' ∉ a ∧ b.head? ≠ some (ch '%') ∧
    s = a ++ (List.replicate (j + 1) (ch '%') ++ b) := by
  induction s with
  | nil => cases hs
  | cons c s ih =>
    by_cases hc : c = ch '%'
    · subst hc
      by_cases hin : s.head? = some (ch '%')
      · obtain ⟨t, rfl⟩ : ∃ t, s = ch '%' :: t := by
          cases s with
          | nil => cases hin
          | cons d t =>
            cases hin
            exact ⟨t, rfl⟩
        obtain ⟨a, j, b, ha, hb, heq⟩ := ih List.mem_cons_self
        cases a with
        | nil => exact ⟨[], j + 1, b, by simp, hb, by rw [heq]; rfl⟩
        | cons d a =>
          cases heq
          exact absurd List.mem_cons_self ha
      · exact ⟨[], 0, s, by simp, hin, rfl⟩
    · obtain ⟨a, j, b, ha, hb, rfl⟩ := ih ((List.mem_cons.mp hs).resolve_left (Ne.symm hc))
      exact ⟨c :: a, j, b, by simp [Ne.symm hc, ha], hb, rfl⟩

/-- Behind a pending literal a `%` gives up this literal and makes one more item. -/
theorem Yields.of_directive {vec : List Triple} {made others : List FormatItem} {nstr s p : Str}
    (hmakes : Makes vec made) (hnstr : nstr ≠ []) (hp : p.head? ≠ some (ch '%'))
    (h : Yields (initLoop nstr vec false (ch '%' :: p)) (made ++ .string s :: others)) :
    nstr = s ∧ others ≠ [] := by
  cases hscan : scanName [] p with
  | unclosed =>
    rw [initLoop_unclosed hp hscan] at h
    have herror := (initLoop_grows nstr (vec ++ [⟨str "<<pattern-error>>", [], 0⟩]) true p).2 rfl
    rw [h.1] at herror
    cases herror
  | directive name fmt rest =>
    rw [initLoop_directive hp hscan] at h
    obtain ⟨more, hmore⟩ := (initLoop_grows [] (flush vec nstr ++ [⟨name, fmt, 1⟩]) false rest).1
    have hitems := h.2.1
    rw [hmore, flush, if_neg hnstr] at hitems
    simp only [List.map_append, hmakes.1, List.append_assoc, List.append_cancel_left_eq,
      List.map_cons, List.cons_append, List.nil_append, makeItem_literal, List.cons.injEq,
      FormatItem.string.injEq] at hitems
    refine ⟨hitems.1, ?_⟩
    rw [← hitems.2]
    exact List.cons_ne_nil _ _

/-- What follows a literal: nothing, or a directive. -/
def Delimited (w : Str) (others : List FormatItem) : Prop :=
  (w = [] ∧ others = []) ∨ ∃ c w', w = ch '%' :: c :: w' ∧ c ≠ ch '%'

/-- A literal with `%` is not read back. -/
theorem not_yields_of_mem {vec : List Triple} {made others : List FormatItem} {s w : Str}
    (hmakes : Makes vec made) (hs : ch '%' ∈ s) (hw : Delimited w others) :
    ¬ Yields (initLoop [] vec false (escape s ++ w)) (made ++ .string s :: others) := by
  intro h
  obtain ⟨a, j, b, ha, hb, rfl⟩ := exists_run hs
  rw [escape_append, escape_append, escape_of_not_mem ha, escape_replicate, List.append_assoc,
    initLoop_literal ha, List.nil_append] at h
  have hodd : 2 * (j + 1) = 2 * j + 1 + 1 := by omega
  cases b with
  | nil =>
    rcases hw with ⟨rfl, rfl⟩ | ⟨c, w', rfl, hc⟩
    · have hrun := initLoop_run (2 * j + 1) a vec false []
      rw [List.append_nil] at hrun
      rw [hodd, escape_nil, List.append_nil, List.append_nil, hrun] at h
      exact (h.of_directive hmakes (by simp [List.replicate_succ]) (by simp)).2 rfl
    · -- the run and the `%` of the next directive
      have hrun := initLoop_run (2 * j + 2) a vec false (c :: w')
      have hjoin : List.replicate (2 * (j + 1)) (ch '%') ++ [] ++ ch '%' :: c :: w' =
          List.replicate (2 * j + 2 + 1) (ch '%') ++ c :: w' := by
        rw [List.append_nil, List.replicate_succ' (n := 2 * j + 2), List.append_assoc]
        rfl
      rw [escape_nil, hjoin, hrun] at h
      have heq := (h.of_directive hmakes (by simp [List.replicate_succ]) (by simpa using hc)).1
      have hlen := congrArg List.length heq
      simp only [List.length_append, List.length_replicate, List.length_nil] at hlen
      omega
  | cons d b =>
    have hd : d ≠ ch '%' := by simpa using hb
    have hrun := initLoop_run (2 * j + 1) a vec false (escape (d :: b) ++ w)
    rw [hodd, List.append_assoc, hrun] at h
    have heq := (h.of_directive hmakes (by simp [List.replicate_succ]) (by simp [hd])).1
    have hmem : d ∈ List.replicate (2 * j + 1) (ch '%') := by
      rw [List.append_cancel_left heq]
      simp
    exact hd (List.eq_of_mem_replicate hmem)

/-! ## Item by item -/

theorem wellFormed_cons {i : PatternItem} {items : List PatternItem} (h : WellFormed (i :: items)) :
    i.Valid ∧ (∀ k ∈ items.head?, Follows i k) ∧ WellFormed items := by
  have hchain := List.isChain_cons.mp h.follows
  exact ⟨h.valid i List.mem_cons_self, hchain.1,
    ⟨fun k hk => h.valid k (List.mem_cons_of_mem _ hk), hchain.2⟩⟩

/-- Behind a bare directive the written rest starts with a plain character. -/
theorem head_write_plain {x : ItemClass} {items : List PatternItem}
    (h : WellFormed (.bare x :: items)) : ∀ c ∈ (write items).head?, Plain c := by
  obtain ⟨-, hnext, hrest⟩ := wellFormed_cons h
  cases items with
  | nil => simp
  | cons k items =>
    have hk := hnext k rfl
    have hvalid := (wellFormed_cons hrest).1
    intro c hc
    cases k with
    | literal s =>
      cases s with
      | nil => exact absurd rfl hvalid
      | cons d s =>
        obtain ⟨hplain, hne⟩ := hk d rfl
        simp only [write_cons, PatternItem.write, escape_cons, if_neg hne, List.cons_append,
          List.head?_cons, Option.mem_def, Option.some.injEq] at hc
        rwa [← hc]
    | bare y =>
      cases hc
      exact plain_percent
    | formatted y f =>
      cases hc
      exact plain_percent

/-- Behind a literal there is nothing or a directive. -/
theorem delimited_write {s : Str} {items : List PatternItem} (h : WellFormed (.literal s :: items)) :
    Delimited (write items) (items.map PatternItem.made) := by
  obtain ⟨-, hnext, -⟩ := wellFormed_cons h
  cases items with
  | nil => exact .inl ⟨rfl, rfl⟩
  | cons k items =>
    cases k with
    | literal t => exact (hnext _ rfl).elim
    | bare y => exact .inr ⟨y.letter, write items, rfl, letter_ne_percent y⟩
    | formatted y f =>
      exact .inr ⟨y.letter, ch '{' :: (f ++ [ch '}']) ++ write items, rfl, letter_ne_percent y⟩

/-- The characters of a literal. -/
def PatternItem.text : PatternItem → Str
  | .literal s => s
  | .bare _ | .formatted _ _ => []

/-- No literal has a `%`. -/
def NoPercent (items : List PatternItem) : Prop := ∀ i ∈ items, ch '%' ∉ i.text

theorem noPercent_cons (i : PatternItem) (items : List PatternItem) :
    NoPercent (i :: items) ↔ ch '%' ∉ i.text ∧ NoPercent items := by
  simp [NoPercent]

/-- A directive gives up the pending literal and makes its own item. -/
theorem yields_directive {x : ItemClass} {nstr fmt p rest : Str} {vec : List Triple}
    {made others : List FormatItem}
    (hscan : scanName [] (x.letter :: p) = .directive [x.letter] fmt rest) :
    Yields (initLoop nstr vec false (ch '%' :: x.letter :: p))
        (made ++ pending nstr ++ .made x fmt :: others) ↔
      Yields (initLoop [] (flush vec nstr ++ [⟨[x.letter], fmt, 1⟩]) false rest)
        (made ++ pending nstr ++ [.made x fmt] ++ pending [] ++ others) := by
  have hhead : (x.letter :: p).head? ≠ some (ch '%') := by
    simpa using letter_ne_percent x
  rw [initLoop_directive hhead hscan]
  simp [pending]

/-- Either direction, along the list. A literal is only pending where no literal follows. -/
theorem yields_iff (items : List PatternItem) (hwf : WellFormed items) :
    ∀ (nstr : Str) (vec : List Triple) (made : List FormatItem), Makes vec made →
      (nstr ≠ [] → ∀ s, some (.literal s) ≠ items.head?) →
      (Yields (initLoop nstr vec false (write items))
          (made ++ pending nstr ++ items.map PatternItem.made) ↔ NoPercent items) := by
  induction items with
  | nil =>
    intro nstr vec made hmakes _
    rw [write_nil, initLoop_nil, List.map_nil, List.append_nil]
    exact iff_of_true ⟨rfl, hmakes.flush nstr⟩ (by simp [NoPercent])
  | cons i items ih =>
    intro nstr vec made hmakes hnstr
    obtain ⟨hvalid, hnext, hrest⟩ := wellFormed_cons hwf
    cases i with
    | literal s =>
      have hempty : nstr = [] := by
        by_contra hne
        exact hnstr hne s rfl
      subst hempty
      by_cases hs : ch '%' ∈ s
      · refine iff_of_false ?_ (by simp [noPercent_cons, PatternItem.text, hs])
        have hnot := not_yields_of_mem hmakes hs (delimited_write hwf)
        simpa [pending, PatternItem.write, PatternItem.made] using hnot
      · have hdelim : ∀ t, some (.literal t) ≠ items.head? := by
          intro t heq
          exact hnext _ heq.symm
        have hstep := ih hrest s vec made hmakes fun _ => hdelim
        rw [write_cons, PatternItem.write, escape_of_not_mem hs, initLoop_literal hs,
          noPercent_cons, PatternItem.text, and_iff_right hs, ← hstep]
        have hs' : s ≠ [] := hvalid
        simp [pending, hs', PatternItem.made]
    | bare x =>
      have hscan := scanName_bare x (head_write_plain hwf)
      have hstep := ih hrest [] _ _ ((hmakes.flush nstr).append (makes_directive x []))
        fun h => absurd rfl h
      rw [noPercent_cons, PatternItem.text, and_iff_right List.not_mem_nil, ← hstep,
        ← yields_directive hscan]
      rfl
    | formatted x f =>
      have hscan := scanName_formatted x hvalid (write items)
      have hstep := ih hrest [] _ _ ((hmakes.flush nstr).append (makes_directive x f))
        fun h => absurd rfl h
      have hwrite : write (.formatted x f :: items) =
          ch '%' :: x.letter :: ch '{' :: (f ++ ch '}' :: write items) := by
        simp [PatternItem.write]
      rw [noPercent_cons, PatternItem.text, and_iff_right List.not_mem_nil, ← hstep,
        ← yields_directive hscan, hwrite]
      rfl

/-- **Round trip.** The scanner gets the items of a written pattern back,
without an error, exactly if no literal among them has a `%`. -/
theorem reads_iff (items : List PatternItem) (hwf : WellFormed items) :
    Reads (LogFormatter.create (write items)) items ↔ NoPercent items := by
  rw [reads_create_iff]
  have h := yields_iff items hwf [] [] [] ⟨rfl, by simp⟩ fun h => absurd rfl h
  simpa [pending] using h

instance (c : UInt8) : Decidable (Plain c) :=
  inferInstanceAs (Decidable (¬isalpha c ∧ c ≠ ch '{' ∧ c ≠ ch '}'))

instance : ∀ i : PatternItem, Decidable i.Valid
  | .literal s => inferInstanceAs (Decidable (s ≠ []))
  | .bare _ => isTrue trivial
  | .formatted _ f => inferInstanceAs (Decidable (ch '}' ∉ f))

instance : ∀ i k : PatternItem, Decidable (Follows i k)
  | .literal _, .literal _ => isFalse id
  -- by the one byte, not by all 256
  | .bare _, .literal s => Option.decidableForallMem s.head?
  | .formatted _ _, .literal _ | .literal _, .bare _ | .bare _, .bare _ | .formatted _ _, .bare _
  | .literal _, .formatted _ _ | .bare _, .formatted _ _ | .formatted _ _, .formatted _ _ =>
      isTrue trivial

/-- The items that the pattern of a new logger is written from. -/
def defaultItems : List PatternItem :=
  [.formatted .dateTime (str "%Y-%m-%d %H:%M:%S"), .bare .tab, .literal (str "["),
    .bare .threadId, .literal (str " "), .bare .threadName, .literal (str "]"), .bare .tab,
    .bare .tab, .literal (str "["), .bare .level, .literal (str "]"), .bare .tab,
    .literal (str "["), .bare .name, .literal (str "]"), .bare .tab, .bare .filename,
    .literal (str ":"), .bare .line, .bare .tab, .bare .message, .bare .tab, .bare .newLine]

theorem write_defaultItems : write defaultItems = defaultPattern := by decide

theorem defaultItems_wellFormed : WellFormed defaultItems := ⟨by decide, by decide⟩

/-- A new logger has the formatter it asks for. -/
theorem reads_defaultPattern : Reads (LogFormatter.create defaultPattern) defaultItems := by
  rw [← write_defaultItems]
  exact (reads_iff defaultItems defaultItems_wellFormed).mpr (by unfold NoPercent; decide)

/-- The literal `%`, written `%%`, is read as a literal and a directive without a name. -/
theorem not_reads_percent :
    LogFormatter.create (write [.literal (str "%")]) =
        ⟨str "%%", [.string (str "%"), .string (str "<<error_format %>>")], true⟩ ∧
      ¬ Reads (LogFormatter.create (write [.literal (str "%")])) [.literal (str "%")] := by
  have hcreate : LogFormatter.create (write [.literal (str "%")]) =
      ⟨str "%%", [.string (str "%"), .string (str "<<error_format %>>")], true⟩ := by
    have hloop : initLoop [] [] false (str "%%") = ([⟨str "%", [], 0⟩, ⟨[], [], 1⟩], false) := by
      rw [show str "%%" = ch '%' :: ch '%' :: [] from by decide, initLoop_percent_percent,
        initLoop_directive (by simp) rfl, initLoop_nil]
      decide
    rw [show write [.literal (str "%")] = str "%%" by decide, LogFormatter.create, hloop]
    decide
  refine ⟨hcreate, fun h => ?_⟩
  rw [hcreate] at h
  cases h.error

end TinyTcp.Log
