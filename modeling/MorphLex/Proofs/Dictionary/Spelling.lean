import MorphLex.Dictionary.Markup
import MorphLex.Proofs.Result

/-!
The symbols of inline markup. Each one is a single character or a text in angle
brackets, so none is epsilon; contents put one behind the other spell their symbols
one behind the other.
-/

namespace MorphLex

/-- A single character, or a text in angle brackets. -/
inductive Symbol.Written : Symbol → Prop
  | character (character : Char) : Written (ofChar character)
  | bracketed (name : String) : Written ("<" ++ name ++ ">")

theorem Symbol.Written.is_epsilon {symbol : Symbol} (written : symbol.Written) :
    symbol.isEpsilon = false := by
  cases written with
  | character character => exact is_epsilon_of_char character
  | bracketed name =>
      rw [isEpsilon, beq_eq_false_iff_ne]
      intro same
      have starts := congrArg (fun symbol => symbol.toList.head?) same
      simp [epsilon] at starts

namespace Dictionary.Spelling

open Result

theorem markup_written (spelling : Spelling) (name : String) (inner : List Symbol) (markup : Markup)
    (written : ∀ symbol ∈ inner, symbol.Written) :
    ∀ symbol ∈ spelling.markup name inner markup, symbol.Written := by
  intro symbol member
  cases markup with
  | tilde => exact List.mem_singleton.mp member ▸ .character '~'
  | blank => exact List.mem_singleton.mp member ▸ .character ' '
  | group =>
      rcases List.mem_cons.mp member with rfl | member
      · exact .character '#'
      · exact written symbol member
  | join =>
      simp only [Spelling.markup] at member
      split at member
      · exact List.mem_singleton.mp member ▸ .character '+'
      · exact List.mem_singleton.mp member ▸ .bracketed "$"
  | boundary =>
      simp only [Spelling.markup] at member
      split at member
      · exact List.mem_singleton.mp member ▸ .character '>'
      · simp at member
  | tag => exact List.mem_singleton.mp member ▸ .bracketed name
  | anyTag => exact List.mem_singleton.mp member ▸ .bracketed "ANY_TAG"
  | anyChar => exact List.mem_singleton.mp member ▸ .bracketed "ANY_CHAR"

mutual

theorem node_written (spelling : Spelling) (node : Xml.Node) (symbols : List Symbol)
    (read : spelling.node node = .ok symbols) : ∀ symbol ∈ symbols, symbol.Written := by
  cases node with
  | element inner => exact element_written spelling inner symbols (by rwa [Spelling.node] at read)
  | text content =>
      rw [Spelling.node] at read
      obtain rfl := Except.ok.inj read
      intro symbol member
      obtain ⟨character, _, rfl⟩ := List.mem_map.mp member
      exact .character character
  | comment | instruction =>
      rw [Spelling.node] at read
      obtain rfl := Except.ok.inj read
      simp

theorem element_written (spelling : Spelling) (element : Xml.Element) (symbols : List Symbol)
    (read : spelling.element element = .ok symbols) : ∀ symbol ∈ symbols, symbol.Written := by
  obtain ⟨name, attributes, line, children⟩ := element
  rw [Spelling.element] at read
  split at read
  · exact nomatch read
  · obtain ⟨inner, spelled, same⟩ := bind_eq_ok_iff.mp read
    obtain rfl := pure_eq_ok_iff.mp same
    exact markup_written spelling "" inner .group (content_written spelling children inner spelled)
  · obtain rfl := Except.ok.inj read
    exact markup_written spelling _ [] _ (by simp)

theorem content_written (spelling : Spelling) (nodes : List Xml.Node) (symbols : List Symbol)
    (read : spelling.content nodes = .ok symbols) : ∀ symbol ∈ symbols, symbol.Written := by
  cases nodes with
  | nil =>
      rw [Spelling.content] at read
      obtain rfl := Except.ok.inj read
      simp
  | cons node rest =>
      rw [Spelling.content] at read
      obtain ⟨front, first, read⟩ := bind_eq_ok_iff.mp read
      obtain ⟨back, later, same⟩ := bind_eq_ok_iff.mp read
      obtain rfl := pure_eq_ok_iff.mp same
      intro symbol member
      rcases List.mem_append.mp member with member | member
      · exact node_written spelling node front first symbol member
      · exact content_written spelling rest back later symbol member

end

theorem content_append (spelling : Spelling) (front back : List Xml.Node) :
    spelling.content (front ++ back) =
    spelling.content front >>= fun first => (spelling.content back).map (first ++ ·) := by
  induction front with
  | nil =>
      rw [Spelling.content, List.nil_append]
      cases spelling.content back <;> rfl
  | cons node rest ih =>
      rw [List.cons_append, Spelling.content, Spelling.content, ih]
      cases spelling.node node with
      | error fault => rfl
      | ok start =>
          cases spelling.content rest with
          | error fault => rfl
          | ok others =>
              cases spelling.content back with
              | error fault => rfl
              | ok second => exact congrArg Except.ok (List.append_assoc start others second).symm

end Dictionary.Spelling

end MorphLex
