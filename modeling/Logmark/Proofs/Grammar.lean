import Logmark.Proofs.Fields
import Logmark.Proofs.Numerals
import Logmark.Statement.Reading

/-!
The grammar of statement lines, said without the reader. A line spells a statement if it is the
call, the tag, the five fields and the argument in their places, with blanks where source text
allows them. The reader tries one cut of the call after the other; that it accepts exactly the
grammar rests on no line having two cuts that succeed.
-/
namespace Logmark.Statement

open Text Logmark.Field

/-- What may follow the parenthesis that closes the call: blanks, with at most one semicolon. -/
def IsClosing (t : Text) : Prop :=
  ∃ w w', allBlank w = true ∧ allBlank w' = true ∧ (t = w ++ [';'] ++ w' ∨ t = w ++ w')

/-- The text that opens a call with a message of `tag`. -/
def opening (tag : Tag) : Text := '"' :: tag.name ++ [' ']

/-- The fields of a message in their places, the line number written as `number`. -/
def messageWith (s : Statement) (number : Text) : Text :=
  s.label ++ separator ++ (s.file ++ separator ++ (s.symbol ++ separator ++
    (number ++ separator ++ s.shown)))

/-- What the parts of a statement must be like for a message with `number` and a second argument
`argument` to spell it. -/
structure Fits (s : Statement) (number argument : Text) : Prop where
  label : IsField s.label
  file : IsField s.file
  symbol : IsField s.symbol
  number_ne_nil : number ≠ []
  digits : ∀ c ∈ number, c.isDigit = true
  value : Nat.ofDigitChars 10 number 0 = s.line
  line_le : s.line ≤ maxCount
  shown : trim s.shown = trim argument
  expression : s.expression = trim argument
  not_blank : allBlank argument = false

/-- The lines that spell a statement of `tag`: its parts in their places, blanks before and inside
the call, closing text after it. -/
inductive Spells (tag : Tag) (s : Statement) : Text → Prop where
  | call {indent gap number argument closing : Text} :
    allBlank indent = true → allBlank gap = true → Fits s number argument → IsClosing closing →
    Spells tag s (indent ++ callStart ++ gap ++ opening tag ++
      (messageWith s number ++ messageEnd ++ argument ++ ')' :: closing))

variable {tag : Tag} {line body t number argument message : Text} {s : Statement}

theorem IsClosing.append {w : Text} (h : IsClosing t) (hw : allBlank w = true) :
    IsClosing (t ++ w) := by
  obtain ⟨w₂, w₃, h₂, h₃, ht⟩ := h
  refine ⟨w₂, w₃ ++ w, h₂, by simp [h₃, hw], ?_⟩
  cases ht with
  | inl ht => exact .inl (by rw [ht, List.append_assoc])
  | inr ht => exact .inr (by rw [ht, List.append_assoc])

/-- Line breaks at the end are blanks that closing text does without. -/
theorem IsClosing.dropEndWhile_isBreak (h : IsClosing t) : IsClosing (dropEndWhile isBreak t) := by
  obtain ⟨w₂, w₃, h₂, h₃, ht | ht⟩ := h
  · refine ⟨w₂, dropEndWhile isBreak w₃, h₂, allBlank_dropEndWhile h₃, .inl ?_⟩
    rw [ht, List.append_assoc, List.singleton_append, dropEndWhile_append_cons (by decide)]
    simp
  · have hblank : allBlank t = true := by simp [ht, h₂, h₃]
    exact ⟨dropEndWhile isBreak t, [], allBlank_dropEndWhile hblank, rfl, .inr (by simp)⟩

/-- The text before the parenthesis that closes a call, and before what may follow that. -/
def closed? (rest : Text) : Option Text :=
  [')'].isSuffixOf? (trimEnd (([';'].isSuffixOf? (trimEnd rest)).getD (trimEnd rest)))

theorem exists_isClosing_of_closed? {rest : Text} (h : closed? rest = some body) :
    ∃ t, IsClosing t ∧ rest = body ++ ')' :: t := by
  obtain ⟨w, hw, hrest⟩ := exists_append_trimEnd rest
  have hparen := isSuffixOf?_eq_some_iff.1 h
  cases hsemi : [';'].isSuffixOf? (trimEnd rest) with
  | some r =>
    rw [hsemi, Option.getD_some] at hparen
    obtain ⟨v, hv, hr⟩ := exists_append_trimEnd r
    refine ⟨v ++ [';'] ++ w, ⟨v, w, hv, hw, .inl rfl⟩, ?_⟩
    rw [hrest, isSuffixOf?_eq_some_iff.1 hsemi, hr, hparen]
    simp
  | none =>
    rw [hsemi, Option.getD_none] at hparen
    obtain ⟨v, hv, hr⟩ := exists_append_trimEnd (trimEnd rest)
    refine ⟨v ++ w, ⟨v, w, hv, hw, .inr rfl⟩, ?_⟩
    rw [hrest, hr, hparen]
    simp

theorem IsClosing.closed? (h : IsClosing t) : closed? (body ++ ')' :: t) = some body := by
  rw [Statement.closed?, isSuffixOf?_eq_some_iff]
  obtain ⟨w₂, w₃, h₂, h₃, ht | ht⟩ := h
  · have hend : trimEnd (body ++ ')' :: t) = (body ++ ')' :: w₂) ++ [';'] := by
      rw [ht, List.append_assoc, List.singleton_append, ← List.cons_append, ← List.append_assoc,
        trimEnd_append_cons (by decide), trimEnd_of_allBlank h₃]
    rw [hend, isSuffixOf?_eq_some_iff.2 rfl, Option.getD_some, trimEnd_append_cons (by decide),
      trimEnd_of_allBlank h₂]
  · have hend : trimEnd (body ++ ')' :: t) = body ++ [')'] := by
      rw [trimEnd_append_cons (by decide), trimEnd_of_allBlank (by simp [ht, h₂, h₃])]
    have hnone : [';'].isSuffixOf? (body ++ [')']) = none := by
      refine Option.eq_none_iff_forall_not_mem.2 fun r hr => ?_
      have hlast := (List.append_inj' (isSuffixOf?_eq_some_iff.1 hr) rfl).2
      simp at hlast
    rw [hend, hnone, Option.getD_none, trimEnd_append_cons (by decide),
      trimEnd_of_allBlank allBlank_nil]

theorem closed?_eq_some_iff {rest : Text} :
    closed? rest = some body ↔ ∃ t, IsClosing t ∧ rest = body ++ ')' :: t := by
  constructor
  · exact exists_isClosing_of_closed?
  · rintro ⟨t, ht, rfl⟩
    exact ht.closed?

/-- Each part of a call stands at the start of what trimming leaves after the part before it. -/
theorem body?_eq_some_iff_trimmed :
    body? tag line = some body ↔
      ∃ r, trimStart (dropEndWhile isBreak line) = callStart ++ r ∧
        ∃ r', trimStart r = opening tag ++ r' ∧ ∃ t, IsClosing t ∧ r' = body ++ ')' :: t := by
  simp only [← closed?_eq_some_iff, body?, Option.bind_eq_bind, Option.bind_eq_some_iff,
    isPrefixOf?_eq_some_iff]
  rfl

theorem body?_eq_some_iff :
    body? tag line = some body ↔ ∃ w₀ w₁ t, allBlank w₀ = true ∧ allBlank w₁ = true ∧ IsClosing t ∧
      line = w₀ ++ callStart ++ w₁ ++ opening tag ++ (body ++ ')' :: t) := by
  rw [body?_eq_some_iff_trimmed]
  constructor
  · rintro ⟨r, hr, r', hr', t, ht, rfl⟩
    obtain ⟨breaks, hbreaks, hline⟩ := exists_append_dropEndWhile isBreak line
    obtain ⟨w₀, h₀, hw₀⟩ := exists_append_trimStart (dropEndWhile isBreak line)
    obtain ⟨w₁, h₁, hw₁⟩ := exists_append_trimStart r
    have hblank : allBlank breaks = true :=
      allBlank_iff.2 fun c hc => isBlank_of_isBreak (hbreaks c hc)
    refine ⟨w₀, w₁, t ++ breaks, h₀, h₁, ht.append hblank, ?_⟩
    rw [hline, hw₀, hr, hw₁, hr']
    simp
  · rintro ⟨w₀, w₁, t, h₀, h₁, ht, rfl⟩
    have hend : dropEndWhile isBreak
        (w₀ ++ callStart ++ w₁ ++ opening tag ++ (body ++ ')' :: t)) =
          w₀ ++ (callStart ++ (w₁ ++ (opening tag ++
            (body ++ ')' :: dropEndWhile isBreak t)))) := by
      rw [← List.append_assoc, dropEndWhile_append_cons (by decide)]
      simp
    refine ⟨w₁ ++ (opening tag ++ (body ++ ')' :: dropEndWhile isBreak t)), ?_, _, ?_, _,
      ht.dropEndWhile_isBreak, rfl⟩
    · rw [hend, trimStart_append_of_allBlank h₀]
      exact trimStart_cons_of_not_isBlank (by decide)
    · rw [trimStart_append_of_allBlank h₁]
      exact trimStart_cons_of_not_isBlank (by decide)

/-- A number holds no space, so it runs up to the next separator. -/
theorem splitOnce?_number (h : ∀ c ∈ number, c.isDigit = true) :
    splitOnce? separator (number ++ separator ++ t) = some (number, t) := by
  have hspace : ' ' ∉ number := fun hmem => absurd (h _ hmem) (by decide)
  refine splitOnce?_separator_eq_some_iff.2 ⟨rfl, fun hsep => ?_, fun hopen => ?_⟩
  · exact hspace (hsep.subset (by decide))
  · exact hspace (hopen.subset (by decide))

theorem splitOnce?_field {x : Text} (h : IsField x) :
    splitOnce? separator (x ++ separator ++ t) = some (x, t) :=
  splitOnce?_separator_eq_some_iff.2 ⟨rfl, h.no_separator, h.no_open_end⟩

theorem ofMessage?_eq_some_iff :
    ofMessage? message (trim argument) = some s ↔
      ∃ number, Fits s number argument ∧ message = messageWith s number := by
  constructor
  · intro h
    simp only [ofMessage?, Option.bind_eq_bind, Option.bind_eq_some_iff, Prod.exists,
      splitOnce?_separator_eq_some_iff] at h
    obtain ⟨label, rest, ⟨rfl, hlabel, hlabel'⟩, file, rest, ⟨rfl, hfile, hfile'⟩, symbol, rest,
      ⟨rfl, hsymbol, hsymbol'⟩, number, shown, ⟨rfl, -, -⟩, h⟩ := h
    split at h
    · contradiction
    split at h
    · contradiction
    rename_i hblank hshown
    obtain ⟨line, hline, hs⟩ := Option.bind_eq_some_iff.1 h
    obtain ⟨hne, hdigits, hvalue, hle⟩ := count?_eq_some_iff.1 hline
    obtain rfl := Option.some.inj hs
    simp only [List.any_cons, List.any_nil, Bool.or_eq_true, not_or, Bool.not_eq_true,
      allBlank_trim] at hblank
    exact ⟨number, ⟨⟨hblank.1, hlabel, hlabel'⟩, ⟨hblank.2.1, hfile, hfile'⟩,
      ⟨hblank.2.2.1, hsymbol, hsymbol'⟩, hne, hdigits, hvalue, hle, not_not.1 hshown, rfl,
      hblank.2.2.2.1⟩, rfl⟩
  · rintro ⟨number, h, rfl⟩
    have hcount : count? number = some s.line :=
      count?_eq_some_iff.2 ⟨h.number_ne_nil, h.digits, h.value, h.line_le⟩
    simp only [ofMessage?, messageWith, Option.bind_eq_bind, splitOnce?_field h.label,
      splitOnce?_field h.file, splitOnce?_field h.symbol, splitOnce?_number h.digits,
      Option.bind_some, hcount, h.shown, List.any_cons, List.any_nil, h.label.not_blank,
      h.file.not_blank, h.symbol.not_blank, allBlank_trim, h.not_blank]
    rw [← h.expression]
    simp

/-- Where the first separator ends a part, the part and the rest are determined by the text. -/
theorem part_inj {x x' y y' : Text}
    (h : splitOnce? separator (x ++ separator ++ y) = some (x, y))
    (h' : splitOnce? separator (x' ++ separator ++ y') = some (x', y'))
    (heq : x ++ separator ++ y = x' ++ separator ++ y') : x = x' ∧ y = y' := by
  rw [heq, h', Option.some.injEq, Prod.mk.injEq] at h
  exact ⟨h.1.symm, h.2.symm⟩

/-- A longer message has the same fields; what is added belongs to the shown expression. -/
theorem eq_of_messageWith_append {s' : Statement} {number' argument' d : Text}
    (h : Fits s number argument) (h' : Fits s' number' argument')
    (heq : messageWith s number ++ d = messageWith s' number') : s.shown ++ d = s'.shown := by
  simp only [messageWith, List.append_assoc] at heq
  simp only [← List.append_assoc _ separator] at heq
  have hlabel := part_inj (splitOnce?_field h.label) (splitOnce?_field h'.label) heq
  have hfile := part_inj (splitOnce?_field h.file) (splitOnce?_field h'.file) hlabel.2
  have hsymbol := part_inj (splitOnce?_field h.symbol) (splitOnce?_field h'.symbol) hfile.2
  exact (part_inj (splitOnce?_number h.digits) (splitOnce?_number h'.digits) hsymbol.2).2

/-- The end of a message cannot begin within another one. -/
theorem eq_or_eq_of_messageEnd_append {d a a' : Text}
    (h : messageEnd ++ a = d ++ (messageEnd ++ a')) :
    d = [] ∨ ∃ e, d = messageEnd ++ e ∧ a = e ++ messageEnd ++ a' := by
  rcases d with _ | ⟨c₁, _ | ⟨c₂, _ | ⟨c₃, d⟩⟩⟩
  · exact .inl rfl
  · simp [messageEnd] at h
  · simp [messageEnd] at h
  · obtain ⟨rfl, rfl, rfl, ha⟩ : ':' = c₁ ∧ '"' = c₂ ∧ ',' = c₃ ∧ a = d ++ messageEnd ++ a' := by
      simpa [messageEnd] using h
    exact .inr ⟨d, rfl, ha⟩

/-- No cut that gives a statement has a later one beside it. The later one would have the end of a
message in its shown expression, and the earlier one in its argument: each would be longer than the
other. -/
theorem not_later_cut {s' : Statement} {number' argument' e : Text}
    (h : Fits s number argument) (h' : Fits s' number' argument')
    (hmessage : messageWith s number ++ (messageEnd ++ e) = messageWith s' number')
    (hargument : argument = e ++ messageEnd ++ argument') : False := by
  have hshown := eq_of_messageWith_append h h' hmessage
  have hlater : (trim argument).length ≤ (trim argument').length := by
    rw [← h.shown, ← h'.shown, ← hshown]
    have := length_trim_add_le s.shown (messageEnd ++ e)
    omega
  have hearlier : 3 + (trim argument').length ≤ (trim argument).length := by
    have hend := length_trim_add_le e messageEnd
    have hall := length_trim_add_le (e ++ messageEnd) argument'
    have hlen : (trim messageEnd).length = 3 := by decide
    rw [← hargument] at hall
    omega
  omega

/-- At most one cut of a call gives a statement. -/
theorem cut_unique {s' : Statement} {number' argument' : Text}
    (h : Fits s number argument) (h' : Fits s' number' argument')
    (heq : messageWith s number ++ messageEnd ++ argument =
      messageWith s' number' ++ messageEnd ++ argument') :
    messageWith s number = messageWith s' number' ∧ argument = argument' := by
  rw [List.append_assoc, List.append_assoc, List.append_eq_append_iff] at heq
  obtain ⟨d, hd, hrest⟩ | ⟨d, hd, hrest⟩ := heq
  · obtain rfl | ⟨e, rfl, he⟩ := eq_or_eq_of_messageEnd_append hrest
    · rw [hd, List.append_nil]
      exact ⟨rfl, List.append_cancel_left hrest⟩
    · exact (not_later_cut h h' hd.symm he).elim
  · obtain rfl | ⟨e, rfl, he⟩ := eq_or_eq_of_messageEnd_append hrest
    · rw [hd, List.append_nil]
      exact ⟨rfl, (List.append_cancel_left hrest).symm⟩
    · exact (not_later_cut h' h hd.symm he).elim

/-- A search through all cuts of a body finds a statement, in any order, exactly if one fits it. -/
theorem findSome?_places_eq_some_iff {places : List (Text × Text)}
    (hplaces : ∀ message argument,
      (message, argument) ∈ places ↔ body = message ++ messageEnd ++ argument) :
    (places.findSome? fun (message, argument) => ofMessage? message (trim argument)) = some s ↔
      ∃ number argument, Fits s number argument ∧
        body = messageWith s number ++ messageEnd ++ argument := by
  constructor
  · intro h
    obtain ⟨⟨message, argument⟩, hcut, hread⟩ := List.exists_of_findSome?_eq_some h
    obtain ⟨number, hfits, rfl⟩ := ofMessage?_eq_some_iff.1 hread
    exact ⟨number, argument, hfits, (hplaces _ _).1 hcut⟩
  · rintro ⟨number, argument, hfits, hbody⟩
    have hread : ofMessage? (messageWith s number) (trim argument) = some s :=
      ofMessage?_eq_some_iff.2 ⟨number, hfits, rfl⟩
    -- The search ends with some statement, and there is no other than `s`.
    obtain ⟨s', hs'⟩ : ∃ s', (places.findSome? fun (message, argument) =>
        ofMessage? message (trim argument)) = some s' := by
      refine Option.isSome_iff_exists.1 (List.findSome?_isSome_iff.2 ?_)
      exact ⟨(messageWith s number, argument), (hplaces _ _).2 hbody,
        Option.isSome_of_eq_some hread⟩
    obtain ⟨⟨message, argument'⟩, hcut, hread'⟩ := List.exists_of_findSome?_eq_some hs'
    obtain ⟨number', hfits', rfl⟩ := ofMessage?_eq_some_iff.1 hread'
    obtain ⟨hmessage, rfl⟩ := cut_unique hfits hfits' (hbody.symm.trans ((hplaces _ _).1 hcut))
    have hsame : some s' = some s := by
      rw [← hread', ← hmessage]
      exact hread
    rw [hs', hsame]

/-- The reader's own search goes from left to right. -/
theorem findSome?_cuts_eq_some_iff :
    ((cuts messageEnd body).findSome? fun (message, argument) =>
        ofMessage? message (trim argument)) = some s ↔
      ∃ number argument, Fits s number argument ∧
        body = messageWith s number ++ messageEnd ++ argument :=
  findSome?_places_eq_some_iff fun _ _ => mem_cuts_iff

theorem spells_of_ofLine? (h : ofLine? tag line = some s) : Spells tag s line := by
  obtain ⟨body, hbody, hcuts⟩ := Option.bind_eq_some_iff.1 h
  obtain ⟨number, argument, hfits, rfl⟩ := findSome?_cuts_eq_some_iff.1 hcuts
  obtain ⟨w₀, w₁, t, h₀, h₁, ht, rfl⟩ := body?_eq_some_iff.1 hbody
  exact .call h₀ h₁ hfits ht

theorem Spells.ofLine? (h : Spells tag s line) : ofLine? tag line = some s := by
  obtain ⟨h₀, h₁, hfits, ht⟩ := h
  refine Option.bind_eq_some_iff.2 ⟨_, body?_eq_some_iff.2 ⟨_, _, _, h₀, h₁, ht, rfl⟩, ?_⟩
  exact findSome?_cuts_eq_some_iff.2 ⟨_, _, hfits, rfl⟩

/-- The reader accepts exactly the lines of the grammar, and finds the parts they spell. -/
theorem ofLine?_eq_some_iff (tag : Tag) (line : Text) (s : Statement) :
    ofLine? tag line = some s ↔ Spells tag s line :=
  ⟨spells_of_ofLine?, Spells.ofLine?⟩

/-- In a call, at most one place where a message can end leaves the parts of a statement on its two
sides. So a search through these places finds the same in any order. -/
theorem ofLine?_in_any_order (tag : Tag) (line : Text) (h : body? tag line = some body) :
    (∀ message argument message' argument' s s',
      body = message ++ messageEnd ++ argument → body = message' ++ messageEnd ++ argument' →
      ofMessage? message (trim argument) = some s →
      ofMessage? message' (trim argument') = some s' →
      message = message' ∧ argument = argument') ∧
    ∀ places : List (Text × Text),
      (∀ message argument,
        (message, argument) ∈ places ↔ body = message ++ messageEnd ++ argument) →
      (places.findSome? fun (message, argument) => ofMessage? message (trim argument)) =
        ofLine? tag line := by
  constructor
  · intro message argument message' argument' s s' hcut hcut' hread hread'
    obtain ⟨number, hfits, rfl⟩ := ofMessage?_eq_some_iff.1 hread
    obtain ⟨number', hfits', rfl⟩ := ofMessage?_eq_some_iff.1 hread'
    exact cut_unique hfits hfits' (hcut.symm.trans hcut')
  · intro places hplaces
    have hline : ofLine? tag line = (cuts messageEnd body).findSome? fun (message, argument) =>
        ofMessage? message (trim argument) := by
      rw [ofLine?, h]
      rfl
    rw [hline]
    refine Option.ext fun s => ?_
    rw [findSome?_places_eq_some_iff hplaces, findSome?_cuts_eq_some_iff]

/-- A call whose expression holds the end of a message, searched from right to left. -/
theorem ofLine?_in_any_order_backwards :
    let line := "console.log(\"👾 R :: f :: s :: 1 :: g(\":\", a):\", g(\":\", a));".toList
    let body := "R :: f :: s :: 1 :: g(\":\", a):\", g(\":\", a)".toList
    body? Tag.standard line = some body ∧ (cuts messageEnd body).length = 3 ∧
      ((cuts messageEnd body).reverse.findSome? fun (message, argument) =>
        ofMessage? message (trim argument)) = some {
          label := "R".toList
          file := "f".toList
          symbol := "s".toList
          line := 1
          shown := "g(\":\", a)".toList
          expression := "g(\":\", a)".toList } := by
  intro line body
  have hbody : body? Tag.standard line = some body := by decide +kernel
  refine ⟨hbody, by decide, ?_⟩
  refine ((ofLine?_in_any_order Tag.standard line hbody).2 _ fun _ _ => ?_).trans ?_
  · rw [List.mem_reverse, mem_cuts_iff]
  · decide +kernel

end Logmark.Statement
