import LiveStack.Proofs.Code.Strings
import LiveStack.Proofs.Context.Names
import LiveStack.Proofs.Session.Standing

/-!
# Completion

A token that is being typed is completed by the first of four rules that applies: to a word, to a
truth, by a closing quote, or not at all. Here the rules are told apart by what the dictionary of a
session has, and by how the token begins and ends. The rule for truths does not ask whether the
token means something already, so that a word named `t` is completed to `true`. The rule for quotes
goes by the last character alone: a quote there counts as the closing one even if it is escaped, and
behind a backslash the quote that is added is escaped itself. In both cases the open string is not
completed to a string.
-/

namespace LiveStack

open Execution

namespace Text.Quoted

/-- Characters between two quotes are a quoted string just if the last quote is not escaped. -/
theorem exists_decode?_iff {text : String} {inside : List Char}
    (written : text.toList = '"' :: (inside ++ ['"'])) :
    (∃ body, decode? text = some body) ↔ ¬ Token.Escapes inside := by
  refine ⟨?_, fun ends => ⟨_, decode?_of_ends written ends⟩⟩
  rintro ⟨body, read⟩ escapes
  obtain ⟨found, some, -⟩ := Option.map_eq_some_iff.1 read
  have odd : ¬ (inside.reverse.takeWhile (· = '\\')).length % 2 = 0 := by
    rw [Token.Escapes] at escapes
    omega
  simp [written, body?, odd] at some

end Text.Quoted

open Text

/-- What begins with a quote and does not end with another one is no literal. -/
theorem Literal.read?_eq_none_of_open {text : String} {inside : List Char}
    (written : text.toList = '"' :: inside) (last : inside.getLast? ≠ some '"') :
    read? text = none := by
  have notTrue : text ≠ "true" := by
    rintro rfl
    cases written
  have notFalse : text ≠ "false" := by
    rintro rfl
    cases written
  have notQuoted : Quoted.decode? text = none := by
    rw [Quoted.decode?, written, Quoted.body?]
    split
    · next ends =>
        rw [← List.head?_reverse, ends] at last
        exact absurd rfl last
    · rfl
  rw [read?, if_neg notTrue, if_neg notFalse, notQuoted, written]
  rfl

namespace Session

open Machine

variable {session : Session} {token : String}

theorem beginsWith_iff {text start : String} :
    beginsWith text start = true ↔ start.toList <+: text.toList :=
  List.isPrefixOf_iff_prefix

/-- No defined word begins with the token, if it means nothing yet. -/
def Wordless (session : Session) (token : String) : Prop :=
  session.classify token = .unknown → ∀ word ∈ session.words, ¬ token.toList <+: word.toList

/-- What the rules make of a token, the first of them first. -/
inductive Completed (session : Session) (token : String) : String → Prop
  | word {word : String} (unknown : session.classify token = .unknown)
      (mem : word ∈ session.words) (begins : token.toList <+: word.toList)
      (least : ∀ other ∈ session.words, token.toList <+: other.toList → word ≤ other) :
      Completed session token word
  | truth {truth : String} (wordless : session.Wordless token)
      (mem : truth ∈ ["true", "false"]) (begins : token.toList <+: truth.toList) :
      Completed session token truth
  | quote (wordless : session.Wordless token)
      (other : ∀ truth ∈ ["true", "false"], ¬ token.toList <+: truth.toList)
      {inside : List Char} (written : token.toList = '"' :: inside)
      (last : inside.getLast? ≠ some '"') : Completed session token (token ++ "\"")
  | same (wordless : session.Wordless token)
      (other : ∀ truth ∈ ["true", "false"], ¬ token.toList <+: truth.toList)
      (closed : ∀ inside, token.toList = '"' :: inside → inside.getLast? = some '"') :
      Completed session token token

/-- The names of the words are in order, so that the first that is found is the least. -/
theorem least_of_find? {word : String}
    (found : session.words.find? (beginsWith · token) = some word) :
    word ∈ session.words ∧ token.toList <+: word.toList ∧
      ∀ other ∈ session.words, token.toList <+: other.toList → word ≤ other := by
  obtain ⟨begins, front, back, split, before⟩ := List.find?_eq_some_iff_append.1 found
  refine ⟨List.mem_of_find?_eq_some found, beginsWith_iff.1 begins, ?_⟩
  intro other mem begins'
  have increase : session.words.Pairwise (· < ·) := Dictionary.names_increase _
  rw [split] at mem increase
  rcases List.mem_append.1 mem with early | late
  · have passed := before other early
    rw [Bool.not_eq_true', ← Bool.not_eq_true, beginsWith_iff] at passed
    exact absurd begins' passed
  · rcases List.mem_cons.1 late with rfl | late
    · exact String.le_refl _
    · have after := (List.pairwise_append.1 increase).2.1
      exact Std.le_of_lt ((List.pairwise_cons.1 after).1 other late)

/-- A token is an open string for the last rule if its first quote is also its last. -/
theorem isOpen_iff {inside : List Char} :
    (('"' :: inside).length = 1 ∨ ('"' :: inside).getLast? ≠ some '"') ↔
      inside.getLast? ≠ some '"' := by
  cases inside with
  | nil => simp
  | cons c rest => simp

theorem complete_completed (nonempty : token ≠ "") :
    session.Completed token (session.complete token) := by
  rw [complete, if_neg (by simpa using nonempty)]
  -- The rules are tried in this order: words, truths, quotes.
  cases word : if session.classify token = .unknown then
    session.words.find? (beginsWith · token) else none with
  | some word =>
      split at word
      · next unknown =>
          obtain ⟨mem, begins, least⟩ := least_of_find? word
          exact .word unknown mem begins least
      · cases word
  | none =>
      have wordless : session.Wordless token := by
        intro unknown other mem begins
        rw [if_pos unknown, List.find?_eq_none] at word
        exact word other mem (beginsWith_iff.2 begins)
      cases found : ["true", "false"].find? (beginsWith · token) with
      | some truth =>
          have begins : beginsWith truth token = true :=
            List.find?_some (p := (beginsWith · token)) found
          exact .truth wordless (List.mem_of_find?_eq_some found) (beginsWith_iff.1 begins)
      | none =>
          have other : ∀ truth ∈ ["true", "false"], ¬ token.toList <+: truth.toList :=
            fun truth mem begins =>
              List.find?_eq_none.1 found truth mem (beginsWith_iff.2 begins)
          show session.Completed token (if _ then _ else _)
          split
          · next isOpen =>
              obtain ⟨first, isOpen⟩ := isOpen
              obtain ⟨inside, written⟩ := List.head?_eq_some_iff.1 first
              rw [written, isOpen_iff] at isOpen
              exact .quote wordless other written isOpen
          · next closed =>
              refine .same wordless other fun inside written => ?_
              rw [written, isOpen_iff] at closed
              exact Decidable.not_not.1 fun last => closed ⟨rfl, last⟩

/-- What a token is completed to begins with it. -/
theorem Completed.begins {completed : String} (rule : session.Completed token completed) :
    token.toList <+: completed.toList := by
  cases rule with
  | word _ _ begins => exact begins
  | truth _ _ begins => exact begins
  | quote =>
      rw [String.toList_append]
      exact List.prefix_append _ _
  | same => exact List.prefix_refl _

/-- The first character that is typed tells the truths apart. -/
theorem truth_unique (nonempty : token ≠ "") {truth other : String}
    (mem : truth ∈ ["true", "false"]) (mem' : other ∈ ["true", "false"])
    (begins : token.toList <+: truth.toList) (begins' : token.toList <+: other.toList) :
    truth = other := by
  have apart : ∀ truth ∈ ["true", "false"], ∀ other ∈ ["true", "false"],
      truth.toList.head? = other.toList.head? → truth = other := by decide
  obtain ⟨first, rest, written⟩ :=
    List.exists_cons_of_ne_nil (show token.toList ≠ [] by simpa using nonempty)
  have head {text : String} (begins : token.toList <+: text.toList) :
      text.toList.head? = some first := by
    obtain ⟨behind, same⟩ := begins
    rw [← same, written]
    rfl
  exact apart truth mem other mem' ((head begins).trans (head begins').symm)

/-- No word and no truth begins with a quote. -/
theorem Standing.unquoted (standing : session.Standing) {inside : List Char}
    (written : token.toList = '"' :: inside) {text : String}
    (mem : text ∈ session.words ∨ text ∈ ["true", "false"]) : ¬ token.toList <+: text.toList := by
  have plain : text.toList.head? ≠ some '"' := by
    rcases mem with word | truth
    · obtain ⟨entry, found⟩ := (Dictionary.mem_names_iff _ _).1 word
      obtain ⟨valid, -⟩ := standing.machine.inStep.get?_handler found
      exact (Token.nameProblem?_eq_none_iff.1 valid).2.1
    · revert text
      decide
  rintro ⟨behind, same⟩
  rw [← same, written] at plain
  exact plain rfl

/-- An open string gets a quote, unless it ends with one, and is then a string unless the quote is
escaped. -/
theorem Standing.complete_open (standing : session.Standing) {inside : List Char}
    (written : token.toList = '"' :: inside) (unquoted : Token.Unquoted inside) :
    session.complete token = (if inside.getLast? = some '"' then token else token ++ "\"") ∧
    ((∃ body, Literal.read? (session.complete token) = some (.string body)) ↔
      ¬ Token.Escapes inside ∧ inside.getLast? ≠ some '"') := by
  have nonempty : token ≠ "" := by
    rintro rfl
    cases written
  simp only [Literal.read?_eq_string_iff]
  have rule := session.complete_completed nonempty
  generalize session.complete token = completed at rule ⊢
  cases rule with
  | word _ mem begins => exact absurd begins (standing.unquoted written (.inl mem))
  | truth _ mem begins => exact absurd begins (standing.unquoted written (.inr mem))
  | quote _ _ written' last =>
      obtain rfl := List.tail_eq_of_cons_eq (written.symm.trans written')
      have ends : (token ++ "\"").toList = '"' :: (inside ++ ['"']) := by
        rw [String.toList_append, written]
        rfl
      rw [if_neg last, Quoted.exists_decode?_iff ends]
      exact ⟨rfl, (and_iff_left last).symm⟩
  | same _ _ closed =>
      have last := closed inside written
      obtain ⟨init, rfl⟩ := List.getLast?_eq_some_iff.1 last
      have escapes : Token.Escapes init := unquoted init [] rfl
      rw [if_pos last, Quoted.exists_decode?_iff written]
      exact ⟨rfl, fun ends => absurd escapes ends, fun other => absurd last other.2⟩

/-- A token means nothing if it is no word and no literal. -/
theorem classify_eq_unknown_iff :
    session.classify token = .unknown ↔ token ∉ session.words ∧ Literal.read? token = none := by
  have known : token ∈ session.words ↔
      ∃ entry, session.machine.dictionary.get? token = some entry := Dictionary.mem_names_iff _ _
  rw [known, classify, Dictionary.classify]
  cases session.machine.dictionary.get? token with
  | some entry => cases kind : entry.kind <;> simp [TokenClass.ofKind, kind]
  | none =>
      have noEntry : ¬ ∃ entry : Entry, none = some entry := by simp
      rw [TokenClass.ofLiteral, and_iff_right noEntry]
      cases Literal.read? token with
      | none => simp
      | some value => cases value <;> simp

/-- **Completion finishes tokens.** What a token is completed to begins with the token. A token that
means something, as a word or a literal, is left as it is, if it begins no truth. One that means
nothing, and begins a word, becomes the least word that it begins. One that begins a truth, and is
not completed to a word, becomes the truth, even if it means something. An open string gets a quote
at its end, unless the last of its characters is an escaped quote; and it is then read as a string
if and only if neither is a quote its last character nor would the quote behind it be escaped. -/
theorem completion_finishes_tokens (reached : session.Reached) (nonempty : token ≠ "") :
    token.toList <+: (session.complete token).toList ∧
    (token ∈ session.words ∨ (Literal.read? token).isSome →
      (∀ truth ∈ ["true", "false"], ¬ token.toList <+: truth.toList) →
      session.complete token = token) ∧
    (session.classify token = .unknown →
      ∀ word ∈ session.words, token.toList <+: word.toList →
        session.complete token ∈ session.words ∧
        ∀ other ∈ session.words, token.toList <+: other.toList →
          session.complete token ≤ other) ∧
    (session.Wordless token →
      ∀ truth ∈ ["true", "false"], token.toList <+: truth.toList →
        session.complete token = truth) ∧
    ∀ inside, token.toList = '"' :: inside → Token.Unquoted inside →
      session.complete token = (if inside.getLast? = some '"' then token else token ++ "\"") ∧
      ((∃ body, Literal.read? (session.complete token) = some (.string body)) ↔
        ¬ Token.Escapes inside ∧ inside.getLast? ≠ some '"') := by
  have standing := reached.standing
  refine ⟨(session.complete_completed nonempty).begins, ?_, ?_, ?_,
    fun inside => standing.complete_open⟩
  -- Each part follows from the rule by which the token was completed.
  all_goals
    have rule := session.complete_completed nonempty
    generalize session.complete token = completed at rule ⊢
  · intro known noTruth
    have notUnknown : session.classify token ≠ .unknown := by
      rw [ne_eq, classify_eq_unknown_iff]
      rintro ⟨noWord, noLiteral⟩
      rw [noLiteral] at known
      exact known.elim noWord nofun
    cases rule with
    | word unknown => exact absurd unknown notUnknown
    | truth _ mem begins => exact absurd begins (noTruth _ mem)
    | quote _ _ written last =>
        rw [Literal.read?_eq_none_of_open written last] at known
        have word := known.resolve_right nofun
        exact absurd (List.prefix_refl _) (standing.unquoted written (.inl word))
    | same => rfl
  · intro unknown word mem begins
    cases rule with
    | word _ own _ least => exact ⟨own, least⟩
    | truth wordless | quote wordless | same wordless =>
        exact absurd begins (wordless unknown word mem)
  · intro wordless truth mem begins
    cases rule with
    | word unknown own begins => exact absurd begins (wordless unknown _ own)
    | truth _ mem' begins' => exact truth_unique nonempty mem' mem begins' begins
    | quote _ noTruth | same _ noTruth => exact absurd begins (noTruth truth mem)

theorem Standing.mem_words_iff (standing : session.Standing) :
    token ∈ session.words ↔ (session.machine.bind token).isSome := by
  rw [standing.machine.inStep.bind_isSome, Dictionary.contains, Option.isSome_iff_exists]
  exact Dictionary.mem_names_iff _ _

/-- A session in which a word named `t` was made. -/
theorem exists_word_t : ∃ (session : Session) (machine : Machine), session.Reached ∧
    machine.Ready ∧ ∀ name, session.machine.bind name =
      if name = "t" then some ⟨"t", .secondary []⟩ else machine.bind name := by
  obtain ⟨machine, made, ready⟩ := exists_bootstrapped (show 0 < 50 by decide) .empty
  obtain ⟨tokens, lexed, defines⟩ : ∃ tokens,
      Token.ofSource editorSource "[ ] \"t\" define" = (tokens, []) ∧
        Token.Defines tokens [] "t" :=
    ⟨[⟨.opening, ⟨"<editor>", 1, 1⟩⟩, ⟨.closing, ⟨"<editor>", 1, 3⟩⟩,
        ⟨.string "\"t\"", ⟨"<editor>", 1, 5⟩⟩, ⟨.word "define", ⟨"<editor>", 1, 9⟩⟩],
      by decide, ⟨⟨_, _, _, _, _, rfl, by decide⟩, by decide, by decide⟩⟩
  let start : Machine := { machine with location := none, stack := [], diagnostics := [] }
  have orderly : start.Orderly := ⟨ready.orderly.1, ready.orderly.2⟩
  have room : start.calls.length < start.limit := by
    show machine.calls.length < machine.limit
    rw [ready.idle]
    exact ready.room
  obtain ⟨place, ran⟩ := runSource_defines orderly ready.defining room lexed defines
  refine ⟨Action.perform (fresh machine) (.evaluate "[ ] \"t\" define"), machine,
    ⟨50, .empty, fresh machine, [.evaluate "[ ] \"t\" define"], ?_, rfl⟩, ready, fun name => ?_⟩
  · rw [Session.new, made]
    rfl
  · have finished : ((fresh machine).finished "[ ] \"t\" define").2 =
        define { start with location := some place } "t" [] := by
      rw [finished, show (fresh machine).definitions = [] from rfl,
        show (fresh machine).machine = machine from rfl, replay_of_bootstrapped made, attempt_snd]
      exact congrArg final ran
    rw [Action.perform, machine_evaluate, finished]
    have placed : Orderly { start with location := some place } := ⟨orderly.1, orderly.2⟩
    exact bind_define placed "t" [] name

/-- A word named `t` is completed to a truth. An open string that ends with a letter is completed to
a string; one that ends with an escaped quote is left open, and one that ends with a backslash gets
a quote that is escaped. -/
theorem completion_finishes_tokens_of_word_t :
    ∃ session : Session, session.Reached ∧
      "t" ∈ session.words ∧ session.complete "t" = "true" ∧
      session.complete "define" = "define" ∧
      session.complete "defi" ∈ session.words ∧ session.complete "defi" ≤ "define" ∧
      session.complete "\"a" = "\"a\"" ∧ (∃ body, Literal.read? "\"a\"" = some (.string body)) ∧
      session.complete "\"a\\\"" = "\"a\\\"" ∧
      (¬ ∃ body, Literal.read? "\"a\\\"" = some (.string body)) ∧
      session.complete "\"a\\" = "\"a\\\"" := by
  obtain ⟨session, machine, reached, ready, binds⟩ := exists_word_t
  have standing := reached.standing
  have known : "t" ∈ session.words := by
    rw [standing.mem_words_iff, binds]
    rfl
  have defining : machine.bind "define" = some ⟨"define", .primitive .define⟩ := ready.defining
  have defined : "define" ∈ session.words := by
    rw [standing.mem_words_iff, binds, if_neg (by decide), defining]
    rfl
  have unknown : session.classify "defi" = .unknown := by
    rw [classify_eq_unknown_iff, standing.mem_words_iff, binds, if_neg (by decide),
      ready.bind_eq_none_of (by decide) (by decide)]
    exact ⟨nofun, by decide⟩
  have meaning : session.Wordless "t" := by
    intro none
    exact absurd known (classify_eq_unknown_iff.1 none).1
  -- Every quote inside an open string is behind a backslash.
  have plain : Token.Unquoted "a".toList := Token.unquoted_nil.concat (by decide)
  have slash : Token.Unquoted "a\\".toList := plain.concat (by decide)
  have quote : Token.Unquoted "a\\\"".toList := slash.concat (by decide)
  obtain ⟨-, -, -, truth, -⟩ := completion_finishes_tokens reached (show "t" ≠ "" by decide)
  obtain ⟨-, kept, -⟩ := completion_finishes_tokens reached (show "define" ≠ "" by decide)
  obtain ⟨-, -, word, -⟩ := completion_finishes_tokens reached (show "defi" ≠ "" by decide)
  obtain ⟨-, -, -, -, ended⟩ := completion_finishes_tokens reached (show "\"a" ≠ "" by decide)
  obtain ⟨-, -, -, -, escaped⟩ := completion_finishes_tokens reached (show "\"a\\\"" ≠ "" by decide)
  obtain ⟨-, -, -, -, begun⟩ := completion_finishes_tokens reached (show "\"a\\" ≠ "" by decide)
  obtain ⟨least, below⟩ := word unknown "define" defined (by decide)
  obtain ⟨completed, read⟩ := ended _ rfl plain
  obtain ⟨completed', read'⟩ := escaped _ rfl quote
  obtain ⟨completed'', -⟩ := begun _ rfl slash
  rw [if_neg (by decide)] at completed completed''
  rw [if_pos (by decide)] at completed'
  rw [completed] at read
  rw [completed'] at read'
  exact ⟨session, reached, known, truth meaning "true" (by decide) (by decide),
    kept (.inl defined) (by decide), least, below "define" defined (by decide), completed,
    read.2 (by decide), completed', fun found => (read'.1 found).2 (by decide), completed''⟩

end Session

end LiveStack
