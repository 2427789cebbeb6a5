import Mathlib.Data.List.Nodup

/-!
# Exposition text

The text format of metrics: lines with the help and the type of a family of metrics, and lines with samples, whose labels
have quoted values.  Of the values of the samples only the decimal integers are here, and no timestamps.

A text is read line by line (`parse`), and what lines print is read again (`parse_print`).  Lines are well formed
(`Valid`) when each family comes in one piece: its help and its type at most once and before its samples.
-/

namespace Exposition

abbrev Text := List Char

def dquote : Char := Char.ofNat 0x22

def backslash : Char := Char.ofNat 0x5C

def newline : Char := Char.ofNat 0x0A

/-- The characters of the names of metrics and labels -/
def nameChar (c : Char) : Bool := c.isAlphanum || c == '_' || c == ':'

/-- A line without its end; a sample has a name, labels and a value. -/
inductive Line
  | help (name text : Text)
  | type (name kind : Text)
  | sample (name : Text) (labels : List (Text × Text)) (value : Text)
  deriving DecidableEq

/-! ### Values of labels -/

def escapeChar (c : Char) : Text :=
  if c = backslash then [backslash, backslash]
  else if c = dquote then [backslash, dquote]
  else if c = newline then [backslash, 'n']
  else [c]

def escape (value : Text) : Text := value.flatMap escapeChar

/-- The character that an escape stands for -/
def unescapeChar (c : Char) : Option Char :=
  if c = backslash then some backslash
  else if c = dquote then some dquote
  else if c = 'n' then some newline
  else none

/-- A value up to its closing quote, and what follows -/
def unquote : Text → Option (Text × Text)
  | [] => none
  | [c] => if c = dquote then some ([], []) else none
  | c :: d :: rest =>
    if c = dquote then some ([], d :: rest)
    else if c = backslash then
      match unescapeChar d with
      | some e => (unquote rest).map fun p => (e :: p.1, p.2)
      | none => none
    else (unquote (d :: rest)).map fun p => (c :: p.1, p.2)

def unescape (value : Text) : Option Text :=
  match unquote (value ++ [dquote]) with
  | some (value, []) => some value
  | _ => none

/-! ### Lines -/

def helpStart : Text := ['#', ' ', 'H', 'E', 'L', 'P', ' ']

def typeStart : Text := ['#', ' ', 'T', 'Y', 'P', 'E', ' ']

def kinds : List Text := ["counter", "gauge", "histogram", "summary", "untyped"].map String.toList

/-- The labels up to the closing brace, and what follows; at most `n` of them -/
def parseLabels : (n : Nat) → Text → Option (List (Text × Text) × Text)
  | 0, _ => none
  | n + 1, text =>
    let name := text.takeWhile nameChar
    match text.dropWhile nameChar with
    | '=' :: q :: rest =>
      if name = [] ∨ q ≠ dquote then none
      else
        match unquote rest with
        | some (value, '}' :: rest) => some ([(name, value)], rest)
        | some (value, ',' :: rest) => (parseLabels n rest).map fun p => ((name, value) :: p.1, p.2)
        | _ => none
    | _ => none

/-- A decimal integer -/
def IsNumber (value : Text) : Prop := value ≠ [] ∧ ∀ c ∈ value, c.isDigit = true

-- not the instance that goes through all characters
instance (value : Text) : Decidable (IsNumber value) := @instDecidableAnd _ _ inferInstance (List.decidableBAll ..)

def parseSample (text : Text) : Option Line :=
  let name := text.takeWhile nameChar
  if name = [] then none
  else
    match text.dropWhile nameChar with
    | ' ' :: value => if IsNumber value then some (.sample name [] value) else none
    | '{' :: rest =>
      match parseLabels rest.length rest with
      | some (labels, ' ' :: value) => if IsNumber value then some (.sample name labels value) else none
      | _ => none
    | _ => none

def parseLine (text : Text) : Option Line :=
  if helpStart.isPrefixOf text then
    let rest := text.drop helpStart.length
    match rest.takeWhile nameChar, rest.dropWhile nameChar with
    | c :: name, ' ' :: text => some (.help (c :: name) text)
    | _, _ => none
  else if typeStart.isPrefixOf text then
    let rest := text.drop typeStart.length
    match rest.takeWhile nameChar, rest.dropWhile nameChar with
    | c :: name, ' ' :: kind => if kind ∈ kinds then some (.type (c :: name) kind) else none
    | _, _ => none
  else parseSample text

/-- The lines of a text, each of which has an end; `line` is what has been read of the first. -/
def splitLines (line : Text) : Text → Option (List Text)
  | [] => if line = [] then some [] else none
  | c :: rest => if c = newline then (splitLines [] rest).map (line :: ·) else splitLines (line ++ [c]) rest

def parse (text : Text) : Option (List Line) := (splitLines [] text).bind fun lines => lines.mapM parseLine

namespace Line

def printLabel (label : Text × Text) : Text := label.1 ++ ['=', dquote] ++ escape label.2 ++ [dquote]

def printLabels : List (Text × Text) → Text
  | [] => []
  | [label] => printLabel label
  | label :: labels => printLabel label ++ [','] ++ printLabels labels

def print : Line → Text
  | .help name text => helpStart ++ name ++ [' '] ++ text
  | .type name kind => typeStart ++ name ++ [' '] ++ kind
  | .sample name [] value => name ++ [' '] ++ value
  | .sample name (label :: labels) value => name ++ ['{'] ++ printLabels (label :: labels) ++ ['}', ' '] ++ value

def IsName (name : Text) : Prop := name ≠ [] ∧ ∀ c ∈ name, nameChar c = true

instance (name : Text) : Decidable (IsName name) := @instDecidableAnd _ _ inferInstance (List.decidableBAll ..)

/-- A line that can be printed -/
def Printable : Line → Prop
  | .help name text => IsName name ∧ newline ∉ text
  | .type name kind => IsName name ∧ kind ∈ kinds
  | .sample name labels value => IsName name ∧ (∀ label ∈ labels, IsName label.1) ∧ IsNumber value

end Line

/-- The lines of a text, with their ends -/
def print (lines : List Line) : Text := lines.flatMap fun line => line.print ++ [newline]

/-! ### Families -/

namespace Line

def name : Line → Text
  | .help name _ => name
  | .type name _ => name
  | .sample name _ _ => name

def IsSample : Line → Prop
  | .sample _ _ _ => True
  | .help _ _ => False
  | .type _ _ => False

/-- The families that the help lines are about -/
def helpName : Line → Option Text
  | .help name _ => some name
  | _ => none

def typeName : Line → Option Text
  | .type name _ => some name
  | _ => none

/-- What identifies a sample -/
def sampleKey : Line → Option (Text × List (Text × Text))
  | .sample name labels _ => some (name, labels)
  | _ => none

end Line

/-- Each family comes in one piece. -/
structure Valid (lines : List Line) : Prop where
  oneHelp : (lines.filterMap Line.helpName).Nodup
  oneType : (lines.filterMap Line.typeName).Nodup
  /-- No line about a family follows a sample of it. -/
  before : lines.Pairwise fun a b => a.IsSample → a.name = b.name → b.IsSample
  /-- Between two samples of a family there are only samples of it. -/
  contiguous : ∀ l₁ a l₂ b l₃, lines = l₁ ++ a :: l₂ ++ b :: l₃ → a.IsSample → b.IsSample → a.name = b.name →
    ∀ c ∈ l₂, c.IsSample ∧ c.name = a.name
  once : (lines.filterMap Line.sampleKey).Nodup

/-- A family of one sample -/
structure Family where
  name : Text
  help : Text
  kind : Text
  labels : List (Text × Text)
  value : Text

def Family.lines (f : Family) : List Line := [.help f.name f.help, .type f.name f.kind, .sample f.name f.labels f.value]

variable {c : Char} {name text value rest : Text} {line : Line} {lines : List Line}

/-! ### What is printed is read -/

theorem unquote_cons_of_ne (hq : c ≠ dquote) (hb : c ≠ backslash) (hrest : rest ≠ []) :
    unquote (c :: rest) = (unquote rest).map fun p => (c :: p.1, p.2) := by
  cases rest with
  | nil => exact absurd rfl hrest
  | cons d rest => rw [unquote, if_neg hq, if_neg hb]

theorem unquote_escapeChar (c : Char) (hrest : rest ≠ []) :
    unquote (escapeChar c ++ rest) = (unquote rest).map fun p => (c :: p.1, p.2) := by
  have hbq : backslash ≠ dquote := by decide
  unfold escapeChar
  split
  · rename_i hc
    subst hc
    rw [List.cons_append, List.singleton_append, unquote, if_neg hbq, if_pos rfl]
    rfl
  · split
    · rename_i hc
      subst hc
      rw [List.cons_append, List.singleton_append, unquote, if_neg hbq, if_pos rfl]
      rfl
    · split
      · rename_i hc
        subst hc
        rw [List.cons_append, List.singleton_append, unquote, if_neg hbq, if_pos rfl]
        rfl
      · rename_i hb hq hn
        rw [List.singleton_append, unquote_cons_of_ne hq hb hrest]

theorem unquote_escape (value rest : Text) : unquote (escape value ++ dquote :: rest) = some (value, rest) := by
  induction value with
  | nil =>
    rw [escape, List.flatMap_nil, List.nil_append]
    cases rest <;> simp [unquote]
  | cons c value ih =>
    have hrest : escape value ++ dquote :: rest ≠ [] := by simp
    rw [escape, List.flatMap_cons, ← escape, List.append_assoc, unquote_escapeChar c hrest, ih]
    rfl

/-- An escaped value is read back. -/
theorem unescape_escape (value : Text) : unescape (escape value) = some value := by
  rw [unescape, unquote_escape]

theorem newline_not_mem_escape (value : Text) : newline ∉ escape value := by
  have hbackslash : newline ≠ backslash := by decide
  have hdquote : newline ≠ dquote := by decide
  have hn : newline ≠ 'n' := by decide
  intro hmem
  obtain ⟨c, -, hc⟩ := List.mem_flatMap.1 hmem
  unfold escapeChar at hc
  split_ifs at hc with h₁ h₂ h₃ <;> simp_all

theorem nameChar_ne_newline (hc : nameChar c = true) : c ≠ newline := by
  rintro rfl
  revert hc
  decide

theorem isDigit_ne_newline (hc : c.isDigit = true) : c ≠ newline := by
  rintro rfl
  revert hc
  decide

/-- A name ends where no character of a name follows. -/
theorem takeWhile_name (hname : Line.IsName name) (hc : nameChar c = false) (rest : Text) :
    (name ++ c :: rest).takeWhile nameChar = name ∧ (name ++ c :: rest).dropWhile nameChar = c :: rest := by
  rw [List.takeWhile_append_of_pos hname.2, List.dropWhile_append_of_pos hname.2]
  simp [hc]

theorem parseLabels_print {labels : List (Text × Text)} (hne : labels ≠ []) (hnames : ∀ label ∈ labels, Line.IsName label.1)
    {n : Nat} (hn : labels.length ≤ n) (rest : Text) :
    parseLabels n (Line.printLabels labels ++ '}' :: rest) = some (labels, rest) := by
  have heq : nameChar '=' = false := by decide
  induction labels generalizing n with
  | nil => exact absurd rfl hne
  | cons label labels ih =>
    have hname := hnames label (List.mem_cons_self ..)
    cases n with
    | zero => cases hn
    | succ n =>
      cases labels with
      | nil =>
        have htext : Line.printLabels [label] ++ '}' :: rest =
            label.1 ++ '=' :: dquote :: (escape label.2 ++ dquote :: '}' :: rest) := by
          simp [Line.printLabels, Line.printLabel]
        obtain ⟨htake, hdrop⟩ := takeWhile_name hname heq (dquote :: (escape label.2 ++ dquote :: '}' :: rest))
        rw [htext, parseLabels]
        simp only [htake, hdrop, hname.1, ne_eq, not_true_eq_false, or_self, if_false, unquote_escape]
      | cons label' labels =>
        have htext : Line.printLabels (label :: label' :: labels) ++ '}' :: rest =
            label.1 ++ '=' :: dquote :: (escape label.2 ++ dquote :: ',' ::
              (Line.printLabels (label' :: labels) ++ '}' :: rest)) := by
          simp [Line.printLabels, Line.printLabel]
        have hrest := ih (List.cons_ne_nil _ _) (fun l hl => hnames l (List.mem_cons_of_mem _ hl))
          (Nat.le_of_succ_le_succ hn)
        obtain ⟨htake, hdrop⟩ := takeWhile_name hname heq (dquote :: (escape label.2 ++ dquote :: ',' ::
          (Line.printLabels (label' :: labels) ++ '}' :: rest)))
        rw [htext, parseLabels]
        simp only [htake, hdrop, hname.1, ne_eq, not_true_eq_false, or_self, if_false, unquote_escape, hrest,
          Option.map_some]

/-- A label takes a character at least. -/
theorem length_le_printLabels (labels : List (Text × Text)) : labels.length ≤ (Line.printLabels labels).length := by
  induction labels with
  | nil => exact Nat.zero_le _
  | cons label labels ih =>
    cases labels with
    | nil =>
      simp only [Line.printLabels, Line.printLabel, List.length_append, List.length_cons]
      omega
    | cons label' labels =>
      simp only [Line.printLabels, List.length_append, List.length_cons] at ih ⊢
      omega

theorem parseSample_print {labels : List (Text × Text)} (hline : (Line.sample name labels value).Printable) :
    parseSample (Line.sample name labels value).print = some (.sample name labels value) := by
  obtain ⟨hname, hnames, hvalue⟩ := hline
  cases labels with
  | nil =>
    have htext : (Line.sample name [] value).print = name ++ ' ' :: value := by simp [Line.print]
    obtain ⟨htake, hdrop⟩ := takeWhile_name hname (show nameChar ' ' = false by decide) value
    rw [htext, parseSample]
    simp only [htake, hdrop, hname.1, if_false, if_pos hvalue]
  | cons label labels =>
    have htext : (Line.sample name (label :: labels) value).print =
        name ++ '{' :: (Line.printLabels (label :: labels) ++ '}' :: ' ' :: value) := by simp [Line.print]
    obtain ⟨htake, hdrop⟩ := takeWhile_name hname (show nameChar '{' = false by decide)
      (Line.printLabels (label :: labels) ++ '}' :: ' ' :: value)
    have hlen := length_le_printLabels (label :: labels)
    have hlabels := parseLabels_print (List.cons_ne_nil label labels) hnames
      (n := (Line.printLabels (label :: labels) ++ '}' :: ' ' :: value).length)
      (by rw [List.length_append]; omega) (' ' :: value)
    rw [htext, parseSample]
    simp only [htake, hdrop, hname.1, if_false, hlabels, if_pos hvalue]

/-- A name does not begin with the `#` of the other lines. -/
private theorem not_isPrefixOf_name (hname : Line.IsName name) (start rest : Text) :
    ('#' :: start).isPrefixOf (name ++ rest) = false := by
  obtain ⟨hne, hchars⟩ := hname
  cases name with
  | nil => exact absurd rfl hne
  | cons c name =>
    have hc : '#' ≠ c := by
      rintro rfl
      have := hchars '#' (List.mem_cons_self ..)
      revert this
      decide
    simp [List.isPrefixOf, hc]

theorem sample_print_eq (name : Text) (labels : List (Text × Text)) (value : Text) :
    ∃ rest, (Line.sample name labels value).print = name ++ rest := by
  cases labels with
  | nil => exact ⟨[' '] ++ value, by simp [Line.print]⟩
  | cons label labels => exact ⟨['{'] ++ Line.printLabels (label :: labels) ++ ['}', ' '] ++ value, by simp [Line.print]⟩

theorem parseLine_print (hline : line.Printable) : parseLine line.print = some line := by
  have hspace : nameChar ' ' = false := by decide
  cases line with
  | help name text =>
    obtain ⟨hname, -⟩ := hline
    have htext : (Line.help name text).print = helpStart ++ (name ++ ' ' :: text) := by simp [Line.print]
    obtain ⟨htake, hdrop⟩ := takeWhile_name hname hspace text
    have hprefix : helpStart.isPrefixOf (helpStart ++ (name ++ ' ' :: text)) = true :=
      List.isPrefixOf_iff_prefix.2 (List.prefix_append ..)
    rw [htext, parseLine, if_pos hprefix, List.drop_left]
    simp only [htake, hdrop]
    cases name with
    | nil => exact absurd rfl hname.1
    | cons c name => rfl
  | type name kind =>
    obtain ⟨hname, hkind⟩ := hline
    have htext : (Line.type name kind).print = typeStart ++ (name ++ ' ' :: kind) := by simp [Line.print]
    obtain ⟨htake, hdrop⟩ := takeWhile_name hname hspace kind
    have hprefix : typeStart.isPrefixOf (typeStart ++ (name ++ ' ' :: kind)) = true :=
      List.isPrefixOf_iff_prefix.2 (List.prefix_append ..)
    have hother : helpStart.isPrefixOf (typeStart ++ (name ++ ' ' :: kind)) = false := by
      simp [helpStart, typeStart, List.isPrefixOf]
    rw [htext, parseLine, hother, if_neg Bool.false_ne_true, if_pos hprefix, List.drop_left]
    simp only [htake, hdrop]
    cases name with
    | nil => exact absurd rfl hname.1
    | cons c name => exact if_pos hkind
  | sample name labels value =>
    obtain ⟨rest, hrest⟩ := sample_print_eq name labels value
    have hhelp : helpStart.isPrefixOf (Line.sample name labels value).print = false := by
      rw [hrest]
      exact not_isPrefixOf_name hline.1 _ rest
    have htype : typeStart.isPrefixOf (Line.sample name labels value).print = false := by
      rw [hrest]
      exact not_isPrefixOf_name hline.1 _ rest
    rw [parseLine, hhelp, if_neg Bool.false_ne_true, htype, if_neg Bool.false_ne_true]
    exact parseSample_print hline

/-- A printed line is one line. -/
theorem newline_not_mem_print (hline : line.Printable) : newline ∉ line.print := by
  have hname {name : Text} (h : Line.IsName name) : newline ∉ name := fun hmem => nameChar_ne_newline (h.2 _ hmem) rfl
  cases line with
  | help name text =>
    have hstart : newline ∉ helpStart ++ [' '] := by decide
    simp only [Line.print, List.mem_append, not_or] at hstart ⊢
    exact ⟨⟨⟨hstart.1, hname hline.1⟩, hstart.2⟩, hline.2⟩
  | type name kind =>
    have hstart : newline ∉ typeStart ++ [' '] := by decide
    have hkind : ∀ kind ∈ kinds, newline ∉ kind := by decide +kernel
    simp only [Line.print, List.mem_append, not_or] at hstart ⊢
    exact ⟨⟨⟨hstart.1, hname hline.1⟩, hstart.2⟩, hkind kind hline.2⟩
  | sample name labels value =>
    obtain ⟨hn, hnames, hvalue⟩ := hline
    have hv : newline ∉ value := fun hmem => isDigit_ne_newline (hvalue.2 _ hmem) rfl
    have hlabel {label : Text × Text} (h : Line.IsName label.1) : newline ∉ Line.printLabel label := by
      have hmarks : newline ∉ ['=', dquote] ∧ newline ∉ [dquote] := by decide
      simp only [Line.printLabel, List.mem_append, not_or]
      exact ⟨⟨⟨hname h, hmarks.1⟩, newline_not_mem_escape _⟩, hmarks.2⟩
    have hlabels {labels : List (Text × Text)} (h : ∀ label ∈ labels, Line.IsName label.1) :
        newline ∉ Line.printLabels labels := by
      induction labels with
      | nil => exact List.not_mem_nil
      | cons label labels ih =>
        have hrest := ih fun l hl => h l (List.mem_cons_of_mem _ hl)
        cases labels with
        | nil => exact hlabel (h label (List.mem_cons_self ..))
        | cons label' labels =>
          have hcomma : newline ∉ [','] := by decide
          simp only [Line.printLabels, List.mem_append, not_or] at hrest ⊢
          exact ⟨⟨hlabel (h label (List.mem_cons_self ..)), hcomma⟩, hrest⟩
    have hmarks : newline ∉ [' '] ∧ newline ∉ ['{'] ∧ newline ∉ ['}', ' '] := by decide
    cases labels with
    | nil =>
      simp only [Line.print, List.mem_append, not_or]
      exact ⟨⟨hname hn, hmarks.1⟩, hv⟩
    | cons label labels =>
      have hall := hlabels hnames
      simp only [Line.print, List.mem_append, not_or]
      exact ⟨⟨⟨⟨hname hn, hmarks.2.1⟩, hall⟩, hmarks.2.2⟩, hv⟩

theorem splitLines_append {l : Text} (hl : newline ∉ l) (line rest : Text) :
    splitLines line (l ++ newline :: rest) = (splitLines [] rest).map ((line ++ l) :: ·) := by
  induction l generalizing line with
  | nil => rw [List.nil_append, splitLines, if_pos rfl, List.append_nil]
  | cons c l ih =>
    rw [List.mem_cons, not_or] at hl
    rw [List.cons_append, splitLines, if_neg (Ne.symm hl.1), ih hl.2, List.append_assoc, List.singleton_append]

private theorem splitLines_print (hlines : ∀ line ∈ lines, line.Printable) :
    splitLines [] (print lines) = some (lines.map Line.print) := by
  induction lines with
  | nil => rfl
  | cons line lines ih =>
    have hline := newline_not_mem_print (hlines line (List.mem_cons_self ..))
    have hrest := ih fun l hl => hlines l (List.mem_cons_of_mem _ hl)
    rw [print, List.flatMap_cons, ← print, List.append_assoc, List.singleton_append, splitLines_append hline, hrest]
    rfl

/-- What lines print is read again. -/
theorem parse_print (hlines : ∀ line ∈ lines, line.Printable) : parse (print lines) = some lines := by
  rw [parse, splitLines_print hlines, Option.bind_some]
  induction lines with
  | nil => rfl
  | cons line lines ih =>
    have hline := parseLine_print (hlines line (List.mem_cons_self ..))
    have hrest := ih fun l hl => hlines l (List.mem_cons_of_mem line hl)
    rw [List.map_cons, List.mapM_cons, hline, hrest]
    rfl

/-! ### Families of one sample -/

variable {families : List Family}

theorem filterMap_lines {γ : Type*} (g : Line → Option γ) (k : Family → γ)
    (hk : ∀ f : Family, f.lines.filterMap g = [k f]) (families : List Family) :
    (families.flatMap Family.lines).filterMap g = families.map k := by
  induction families with
  | nil => rfl
  | cons f families ih => rw [List.flatMap_cons, List.filterMap_append, hk, ih, List.map_cons, List.singleton_append]

theorem helpNames_lines (families : List Family) :
    (families.flatMap Family.lines).filterMap Line.helpName = families.map Family.name :=
  filterMap_lines _ _ (fun _ => rfl) families

theorem Family.name_of_mem {f : Family} {x : Line} (hx : x ∈ f.lines) : x.name = f.name := by
  rw [Family.lines, List.mem_cons, List.mem_cons, List.mem_singleton] at hx
  rcases hx with rfl | rfl | rfl <;> rfl

/-- Lines of different families have different names. -/
private theorem pairwise_lines {R : Line → Line → Prop} (hself : ∀ f : Family, f.lines.Pairwise R)
    (hother : ∀ a b : Line, a.name ≠ b.name → R a b) (h : (families.map Family.name).Nodup) :
    (families.flatMap Family.lines).Pairwise R := by
  refine List.pairwise_flatMap.2 ⟨fun f _ => hself f, ?_⟩
  refine (List.pairwise_map.1 h).imp fun {f g} hne x hx y hy => hother x y ?_
  rw [Family.name_of_mem hx, Family.name_of_mem hy]
  exact hne

/-- Families of one sample each, of different names, are well formed. -/
theorem valid_of_nodup (h : (families.map Family.name).Nodup) : Valid (families.flatMap Family.lines) := by
  have hpieces : (families.flatMap Family.lines).Pairwise fun a b => a.IsSample → b.IsSample → a.name ≠ b.name := by
    refine pairwise_lines (fun f => ?_) (fun a b hne _ _ => hne) h
    simp [Family.lines, Line.IsSample]
  refine ⟨?_, ?_, ?_, ?_, ?_⟩
  · rw [helpNames_lines]
    exact h
  · rw [filterMap_lines Line.typeName Family.name (fun _ => rfl)]
    exact h
  · refine pairwise_lines (fun f => ?_) (fun a b hne _ heq => absurd heq hne) h
    simp [Family.lines, Line.IsSample]
  · -- there are no two samples of a family
    intro l₁ a l₂ b l₃ hlines ha hb heq
    rw [hlines, List.append_assoc] at hpieces
    have hab := (List.pairwise_append.1 hpieces).2.1
    have hmem : b ∈ l₂ ++ b :: l₃ := List.mem_append_right _ (List.mem_cons_self ..)
    exact absurd heq ((List.pairwise_cons.1 hab).1 b hmem ha hb)
  · rw [filterMap_lines Line.sampleKey (fun f => (f.name, f.labels)) (fun _ => rfl)]
    refine List.Nodup.of_map Prod.fst ?_
    rw [List.map_map]
    exact h

end Exposition
