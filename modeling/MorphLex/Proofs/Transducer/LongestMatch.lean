import Mathlib.Tactic.Tauto
import MorphLex.Proofs.Transducer.Symbols
import MorphLex.Transducer.Split

/-!
Splitting a text is lossless, and each symbol is the longest match where it stands. A text
has only one such splitting: two tokens that begin it and take as many bytes are the same.
So the order in which a transducer lists its symbols is of no account.
-/

namespace MorphLex

namespace Symbol

/-- What is taken in front of the characters that are left: the longest token that they
begin with, in bytes, and a single character only if they begin with none. -/
inductive LongestAt (tokens : Symbol → Prop) (rest : List Char) : Symbol → Prop
  | token {taken : Symbol} (known : tokens taken) (begins : taken.toList <+: rest)
      (longest : ∀ other, tokens other → other.toList <+: rest →
        other.utf8ByteSize ≤ taken.utf8ByteSize) :
      LongestAt tokens rest taken
  | character {first : Char} (begins : rest.head? = some first)
      (none : ∀ other, tokens other → ¬other.toList <+: rest) : LongestAt tokens rest (ofChar first)

/-- Every symbol is the longest match in front of what is spelled from there on. -/
def LongestMatches (tokens : Symbol → Prop) (symbols : List Symbol) : Prop :=
  ∀ before taken after, symbols = before ++ taken :: after →
    LongestAt tokens ((taken :: after).flatMap String.toList) taken

section Matches

variable {tokens : Symbol → Prop} {rest : List Char}

theorem longest_matches_nil : LongestMatches tokens [] := by
  intro before taken after split
  cases before <;> exact nomatch split

theorem longest_matches_cons_iff (taken : Symbol) (later : List Symbol) :
    LongestMatches tokens (taken :: later) ↔
      LongestAt tokens ((taken :: later).flatMap String.toList) taken ∧
      LongestMatches tokens later := by
  constructor
  · intro each
    refine ⟨each [] taken later rfl, fun before other after split => ?_⟩
    exact each (taken :: before) other after (congrArg (taken :: ·) split)
  · rintro ⟨here, there⟩ before other after split
    cases before with
    | nil =>
        obtain ⟨rfl, rfl⟩ := List.cons.inj split
        exact here
    | cons first before => exact there before other after (List.cons.inj split).2

/-- Of two beginnings of a text the longer one takes more bytes. -/
theorem eq_of_prefixes {first second : Symbol} (begins : first.toList <+: rest)
    (beginsToo : second.toList <+: rest) (same : first.utf8ByteSize = second.utf8ByteSize) :
    first = second := by
  have eq_of_begins {shorter longer : Symbol} (within : shorter.toList <+: longer.toList)
      (size : shorter.utf8ByteSize = longer.utf8ByteSize) : shorter = longer := by
    obtain ⟨more, spelled⟩ := within
    have whole : shorter ++ String.ofList more = longer := by
      rw [← String.toList_inj, String.toList_append, String.toList_ofList, spelled]
    have none : (String.ofList more).utf8ByteSize = 0 := by
      rw [← whole, String.utf8ByteSize_append] at size
      omega
    rw [← whole, String.utf8ByteSize_eq_zero_iff.mp none, String.append_empty]
  rcases List.prefix_or_prefix_of_prefix begins beginsToo with within | within
  · exact eq_of_begins within same
  · exact (eq_of_begins within same.symm).symm

theorem LongestAt.unique {first second : Symbol} (taken : LongestAt tokens rest first)
    (takenToo : LongestAt tokens rest second) : first = second := by
  cases taken with
  | token known begins longest =>
      cases takenToo with
      | token knownToo beginsToo longestToo =>
          exact eq_of_prefixes begins beginsToo
            (Nat.le_antisymm (longestToo _ known begins) (longest _ knownToo beginsToo))
      | character _ none => exact absurd begins (none _ known)
  | character begins none =>
      cases takenToo with
      | token knownToo beginsToo _ => exact absurd beginsToo (none _ knownToo)
      | character beginsToo _ => rw [Option.some.inj (begins.symm.trans beginsToo)]

theorem LongestAt.ne_nil {taken : Symbol} (some : ∀ token, tokens token → token.toList ≠ [])
    (found : LongestAt tokens rest taken) : taken.toList ≠ [] := by
  cases found with
  | token known _ _ => exact some _ known
  | character _ _ => simp

/-- A text has one splitting into longest matches. -/
theorem eq_of_longest_matches {symbols others : List Symbol}
    (some : ∀ token, tokens token → token.toList ≠ []) (longest : LongestMatches tokens symbols)
    (longestToo : LongestMatches tokens others)
    (spelled : symbols.flatMap String.toList = others.flatMap String.toList) :
    symbols = others := by
  induction symbols generalizing others with
  | nil =>
      cases others with
      | nil => rfl
      | cons other _ =>
          have full := ((longest_matches_cons_iff _ _).mp longestToo).1.ne_nil some
          rw [List.flatMap_nil, List.flatMap_cons] at spelled
          exact absurd (List.append_eq_nil_iff.mp spelled.symm).1 full
  | cons taken later ih =>
      obtain ⟨here, there⟩ := (longest_matches_cons_iff _ _).mp longest
      cases others with
      | nil =>
          rw [List.flatMap_nil, List.flatMap_cons] at spelled
          exact absurd (List.append_eq_nil_iff.mp spelled).1 (here.ne_nil some)
      | cons other others =>
          obtain ⟨hereToo, thereToo⟩ := (longest_matches_cons_iff _ _).mp longestToo
          rw [← spelled] at hereToo
          obtain rfl := here.unique hereToo
          rw [List.flatMap_cons, List.flatMap_cons] at spelled
          rw [ih there thereToo (List.append_cancel_left spelled)]

end Matches

section Splitting

variable {tokens : List (List Char)}

theorem split_from_skip (tokens : List (List Char)) (skip : Nat) (rest : List Char) :
    splitFrom tokens skip rest = splitFrom tokens 0 (rest.drop skip) := by
  induction rest generalizing skip with
  | nil => rw [List.drop_nil, splitFrom, splitFrom]
  | cons first rest ih =>
      cases skip with
      | zero => rfl
      | succ skip => rw [splitFrom, ih, List.drop_succ_cons]

/-- One match is taken, and the characters behind it are split. -/
theorem split_from_step (sorted : tokens.Pairwise fun first second =>
      (String.ofList second).utf8ByteSize ≤ (String.ofList first).utf8ByteSize)
    (some : ∀ token ∈ tokens, token ≠ []) (first : Char) (rest : List Char) :
    ∃ taken later, splitFrom tokens 0 (first :: rest) = taken :: splitFrom tokens 0 later ∧
      taken.toList ++ later = first :: rest ∧ taken.toList ≠ [] ∧
      LongestAt (fun symbol => symbol.toList ∈ tokens) (first :: rest) taken := by
  rw [splitFrom]
  cases found : tokens.find? fun token => token.isPrefixOf (first :: rest) with
  | none =>
      refine ⟨ofChar first, rest,
        rfl, by simp, by simp, .character rfl fun other known begins => ?_⟩
      have missed := List.find?_eq_none.mp found _ known
      rw [List.isPrefixOf_iff_prefix] at missed
      exact missed begins
  | some token =>
      obtain ⟨begins, earlier, others, rfl, missed⟩ := List.find?_eq_some_iff_append.mp found
      rw [List.isPrefixOf_iff_prefix] at begins
      obtain ⟨later, spelled⟩ := begins
      have full : token ≠ [] := some token (by simp)
      have left : rest.drop (token.length - 1) = later := by
        obtain ⟨head, tail, rfl⟩ := List.exists_cons_of_ne_nil full
        obtain ⟨rfl, rfl⟩ := List.cons.inj spelled
        simp
      refine ⟨String.ofList token, later, ?_, ?_, ?_, .token ?_ ?_ ?_⟩
      · show String.ofList token :: splitFrom _ (token.length - 1) rest = _
        rw [split_from_skip, left]
      · rw [String.toList_ofList, spelled]
      · rwa [String.toList_ofList]
      · simp
      · rw [String.toList_ofList]
        exact ⟨later, spelled⟩
      · intro other known begins
        rcases List.mem_append.mp known with before | behind
        · have passed := missed _ before
          rw [Bool.not_eq_true', ← Bool.not_eq_true, List.isPrefixOf_iff_prefix] at passed
          exact absurd begins passed
        · rcases List.mem_cons.mp behind with same | behind
          · obtain rfl : other = String.ofList token := by rw [← same, String.ofList_toList]
            exact Nat.le_refl _
          · have smaller := (List.pairwise_cons.mp (List.pairwise_append.mp sorted).2.1).1 _ behind
            rwa [String.ofList_toList] at smaller

/-- Splitting loses nothing and always takes the longest match. -/
theorem split_from_matches (sorted : tokens.Pairwise fun first second =>
      (String.ofList second).utf8ByteSize ≤ (String.ofList first).utf8ByteSize)
    (some : ∀ token ∈ tokens, token ≠ []) (rest : List Char) :
    (splitFrom tokens 0 rest).flatMap String.toList = rest ∧
      LongestMatches (fun symbol => symbol.toList ∈ tokens) (splitFrom tokens 0 rest) := by
  -- Each match takes at least one character, so the rest is shorter.
  induction size : rest.length using Nat.strongRecOn generalizing rest with
  | _ count ih =>
      cases rest with
      | nil => exact ⟨rfl, longest_matches_nil⟩
      | cons first rest =>
          obtain ⟨taken, later, step, spelled, full, longest⟩ :=
            split_from_step sorted some first rest
          have shorter : later.length < count := by
            have lengths := congrArg List.length spelled
            rw [List.length_append, size] at lengths
            have positive := List.length_pos_iff.mpr full
            omega
          obtain ⟨joined, there⟩ := ih later.length shorter later rfl
          have whole :
              (taken :: splitFrom tokens 0 later).flatMap String.toList = first :: rest := by
            rw [List.flatMap_cons, joined, spelled]
          rw [step, longest_matches_cons_iff, whole]
          exact ⟨rfl, longest, there⟩

theorem longest_first (tokens : List Symbol) :
    ((tokens.mergeSort fun first second => second.utf8ByteSize ≤ first.utf8ByteSize).map
      String.toList).Pairwise
      fun first second =>
        (String.ofList second).utf8ByteSize ≤ (String.ofList first).utf8ByteSize := by
  let le (first second : Symbol) : Bool := second.utf8ByteSize ≤ first.utf8ByteSize
  have trans (first second third : Symbol) (lower : le first second = true)
    (upper : le second third = true) :
      le first third = true := by
    simp only [le, decide_eq_true_eq] at lower upper ⊢
    exact Nat.le_trans upper lower
  have total (first second : Symbol) : (le first second || le second first) = true := by
    simp only [le, Bool.or_eq_true, decide_eq_true_eq]
    exact Nat.le_total _ _
  rw [List.pairwise_map]
  exact (List.pairwise_mergeSort trans total tokens).imp fun above => by simpa [le] using above

/-- The symbols of a text are the one splitting of it into longest matches. -/
theorem split_eq_iff {tokens : List Symbol} (some : ∀ token ∈ tokens, token.toList ≠ [])
    (text : String) (symbols : List Symbol) :
    split tokens text = symbols ↔
      String.join symbols = text ∧ LongestMatches (· ∈ tokens) symbols := by
  have listed (symbol : Symbol) :
      symbol.toList ∈
        (tokens.mergeSort fun first second => second.utf8ByteSize ≤ first.utf8ByteSize).map
          String.toList ↔
        symbol ∈ tokens := by
    simp [String.toList_inj]
  obtain ⟨joined, longest⟩ :=
    split_from_matches (longest_first tokens) (by simpa using some) text.toList
  simp only [listed] at longest
  rw [← String.toList_inj, String.toList_join, split]
  constructor
  · rintro rfl
    exact ⟨joined, longest⟩
  · rintro ⟨spelled, longestToo⟩
    exact eq_of_longest_matches some longest longestToo (joined.trans spelled.symm)

end Splitting

end Symbol

namespace Transducer

/-- A symbol of several characters, not epsilon, that some arc reads or writes. -/
def HasToken (t : Transducer) (symbol : Symbol) : Prop :=
  symbol ∈ t.usedSymbols ∧ 1 < symbol.toList.length

theorem mem_tokens_iff (t : Transducer) (symbol : Symbol) :
    symbol ∈ t.symbols.filter Symbol.isMultichar ↔ t.HasToken symbol := by
  rw [List.mem_filter, mem_symbols_iff_used, HasToken]
  exact and_congr_right fun used => Symbol.is_multichar_iff used.1

theorem split_input_eq_iff (t : Transducer) (text : String) (symbols : List Symbol) :
    t.splitInput text = symbols ↔
      String.join symbols = text ∧ Symbol.LongestMatches t.HasToken symbols := by
  have some : ∀ token ∈ t.symbols.filter Symbol.isMultichar, token.toList ≠ [] := by
    intro token listed
    have long := ((mem_tokens_iff t token).mp listed).2
    exact List.ne_nil_of_length_pos (by omega)
  have same : (· ∈ t.symbols.filter Symbol.isMultichar) = t.HasToken :=
    funext fun symbol => propext (mem_tokens_iff t symbol)
  rw [splitInput, Symbol.split_eq_iff some, same]

/-- The symbols of a text spell it. Each of them is a token of the transducer or a single
character, and it is the longest token with which the rest of the text begins, or the first
character if there is none. Nothing else splits the text like this, and so only the set of
the tokens matters. -/
theorem split_input_longest_match (t : Transducer) (text : String) :
    String.join (t.splitInput text) = text ∧
      (∀ symbol ∈ t.splitInput text, t.HasToken symbol ∨
        ∃ character, symbol = Symbol.ofChar character) ∧
      Symbol.LongestMatches t.HasToken (t.splitInput text) ∧
      (∀ symbols, String.join symbols = text → Symbol.LongestMatches t.HasToken symbols →
        symbols = t.splitInput text) ∧
      ∀ u : Transducer, (∀ symbol, u.HasToken symbol ↔ t.HasToken symbol) →
        u.splitInput text = t.splitInput text := by
  obtain ⟨joined, longest⟩ := (split_input_eq_iff t text _).mp rfl
  refine ⟨joined, fun symbol listed => ?_, longest, fun symbols spelled matched => ?_,
    fun u same => ?_⟩
  · obtain ⟨before, after, split⟩ := List.append_of_mem listed
    cases longest before symbol after split with
    | token known _ _ => exact .inl known
    | character _ _ => exact .inr ⟨_, rfl⟩
  · exact ((split_input_eq_iff t text symbols).mpr ⟨spelled, matched⟩).symm
  · have tokens : u.HasToken = t.HasToken := funext fun symbol => propext (same symbol)
    rw [split_input_eq_iff, tokens]
    exact ⟨joined, longest⟩

/-- Tokens that begin alike, one of them within another, on the arcs of one state. -/
def overlapping : Transducer := ⟨#[
  { arcs := #[Arc.identity "ab" 0, Arc.identity "bc<n>" 0, Arc.identity "abc" 0,
    Arc.identity "x" 0], final := some 0.0 }]⟩

/-- The same tokens in another order and on two states, next to another letter. -/
def overlappingApart : Transducer := ⟨#[
  { arcs := #[⟨"abc", "ab", 1, 0.0⟩, Arc.identity "c" 1], final := some 0.0 },
  { arcs := #[⟨Symbol.epsilon, "bc<n>", 0, 0.0⟩] }]⟩

theorem has_token_overlapping (symbol : Symbol) :
    (overlapping.HasToken symbol ↔ symbol ∈ ["ab", "bc<n>", "abc"]) ∧
      (overlappingApart.HasToken symbol ↔ symbol ∈ ["ab", "bc<n>", "abc"]) := by
  have label (t : Transducer) : t.HasToken symbol ↔ symbol ∈ ((t.states.toList.flatMap fun state =>
      state.arcs.toList.flatMap fun arc =>
        [arc.input, arc.output]).filter fun symbol => !symbol.isEpsilon).filter
        Symbol.isMultichar := by
    rw [← mem_tokens_iff, symbols, Symbol.ascending, List.mem_filter, Ascending.mem_of_list,
      ← List.mem_filter]
  have here : ((overlapping.states.toList.flatMap fun state => state.arcs.toList.flatMap fun arc =>
      [arc.input, arc.output]).filter fun symbol => !symbol.isEpsilon).filter Symbol.isMultichar =
        ["ab", "ab", "bc<n>", "bc<n>", "abc", "abc"] := by decide
  have there :
      ((overlappingApart.states.toList.flatMap fun state => state.arcs.toList.flatMap fun arc =>
      [arc.input, arc.output]).filter fun symbol => !symbol.isEpsilon).filter Symbol.isMultichar =
        ["abc", "ab", "bc<n>"] := by decide
  rw [label, label, here, there]
  simp only [List.mem_cons, List.not_mem_nil, or_false]
  tauto

theorem split_input_longest_match_of_overlapping :
    overlapping.splitInput "abcab" = ["abc", "ab"] ∧
      overlappingApart.splitInput "abcab" = overlapping.splitInput "abcab" := by
  obtain ⟨-, -, -, unique, blind⟩ := split_input_longest_match overlapping "abcab"
  have tokens : overlapping.HasToken = (· ∈ ["ab", "bc<n>", "abc"]) :=
    funext fun symbol => propext (has_token_overlapping symbol).1
  refine ⟨(unique _ (by decide) ?_).symm, blind overlappingApart fun symbol => ?_⟩
  · rw [tokens, Symbol.longest_matches_cons_iff, Symbol.longest_matches_cons_iff]
    exact ⟨.token (by decide) (by decide) (by decide), .token (by decide) (by decide) (by decide),
      Symbol.longest_matches_nil⟩
  · rw [(has_token_overlapping symbol).1, (has_token_overlapping symbol).2]

end Transducer

end MorphLex
