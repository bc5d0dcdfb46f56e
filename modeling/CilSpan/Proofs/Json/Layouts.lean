import CilSpan.Proofs.Json.Scan

namespace CilSpan.Json

mutual

def plain : Json → Bool
  | .int n => n.natAbs < UInt64.size
  | .decimal _ | .unreadable => false
  | .arr items => plainItems items
  | .obj members => plainMembers members
  | _ => true
termination_by structural j => j

def plainItems : List Json → Bool
  | [] => true
  | j :: js => j.plain && plainItems js
termination_by structural js => js

def plainMembers : List (String × Json) → Bool
  | [] => true
  | m :: ms => plainMember m && plainMembers ms
termination_by structural ms => ms

def plainMember : String × Json → Bool
  | (_, j) => j.plain
termination_by structural m => m

end

mutual

def tokens : Json → List Token
  | .null => [.null]
  | .bool b => [.bool b]
  | .int n => [.int n]
  | .decimal text => [.decimal text]
  | .str s => [.str s]
  | .unreadable => [.garbled]
  | .arr [] => [.openArr, .closeArr]
  | .arr (j :: js) => .openArr :: (j.tokens ++ tokensItems js)
  | .obj [] => [.openObj, .closeObj]
  | .obj (m :: ms) => .openObj :: (tokensMember m ++ tokensMembers ms)
termination_by structural j => j

def tokensItems : List Json → List Token
  | [] => [.closeArr]
  | j :: js => .comma :: (j.tokens ++ tokensItems js)
termination_by structural js => js

def tokensMembers : List (String × Json) → List Token
  | [] => [.closeObj]
  | m :: ms => .comma :: (tokensMember m ++ tokensMembers ms)
termination_by structural ms => ms

def tokensMember : String × Json → List Token
  | (key, j) => .str key :: .colon :: j.tokens
termination_by structural m => m

end

variable {rest : List Char}

theorem delimited_items (level : Nat) (js : List Json) (rest : List Char) :
    Delimited (prettyItems level js ++ rest) := by
  cases js with
  | nil => exact delimited_cons next?_newLine _
  | cons j js => exact delimited_cons next?_comma _

theorem delimited_members (level : Nat) (ms : List (String × Json)) (rest : List Char) :
    Delimited (prettyMembers level ms ++ rest) := by
  cases ms with
  | nil => exact delimited_cons next?_newLine _
  | cons m ms => exact delimited_cons next?_comma _

theorem delimited_compactItems (js : List Json) (rest : List Char) :
    Delimited (compactItems js ++ rest) := by
  cases js with
  | nil => exact delimited_cons next?_closeArr _
  | cons j js => exact delimited_cons next?_comma _

theorem delimited_compactMembers (ms : List (String × Json)) (rest : List Char) :
    Delimited (compactMembers ms ++ rest) := by
  cases ms with
  | nil => exact delimited_cons next?_closeObj _
  | cons m ms => exact delimited_cons next?_comma _

theorem scans_null : Scans ['n', 'u', 'l', 'l'] [.null] rest := fun _ ↦ rfl

theorem scans_bool (b : Bool) : Scans (atomText (.bool b)) [.bool b] rest := by
  cases b <;> exact fun _ ↦ rfl

theorem scans_key (key : String) {text : List Char} {tokens : List Token}
    (h : Scans text tokens rest) :
    Scans (stringText key ++ ':' :: text) (.str key :: .colon :: tokens) rest :=
  (scans_stringText key _).append (.mark rfl h)

mutual

theorem scans_prettyText {rest : List Char} (level : Nat) : ∀ {j : Json}, j.plain = true →
    Delimited rest → Scans (prettyText level j) j.tokens rest
  | .null, _, _ => scans_null
  | .bool b, _, _ => scans_bool b
  | .int n, h, hrest => scans_ofInt (of_decide_eq_true h) hrest
  | .str s, _, _ => scans_stringText s rest
  | .arr [], _, _ => fun _ ↦ rfl
  | .obj [], _, _ => fun _ ↦ rfl
  | .arr (j :: js), h, _ => by
    obtain ⟨hj, hjs⟩ := (Bool.and_eq_true _ _).mp h
    rw [prettyText, List.append_assoc, List.cons_append]
    exact .mark rfl (.newLine _ ((scans_prettyText (level + 1) hj
      (delimited_items level js rest)).append (scans_prettyItems level hjs)))
  | .obj (m :: ms), h, _ => by
    obtain ⟨hm, hms⟩ := (Bool.and_eq_true _ _).mp h
    rw [prettyText, List.append_assoc, List.cons_append]
    exact .mark rfl (.newLine _ ((scans_prettyMember (level + 1) hm
      (delimited_members level ms rest)).append (scans_prettyMembers level hms)))

theorem scans_prettyItems {rest : List Char} (level : Nat) : ∀ {js : List Json},
    plainItems js = true → Scans (prettyItems level js) (tokensItems js) rest
  | [], _ => .newLine level (.mark rfl (.nil rest))
  | j :: js, h => by
    obtain ⟨hj, hjs⟩ := (Bool.and_eq_true _ _).mp h
    rw [prettyItems, List.append_assoc, List.cons_append]
    exact .mark rfl (.newLine _ ((scans_prettyText (level + 1) hj
      (delimited_items level js rest)).append (scans_prettyItems level hjs)))

theorem scans_prettyMembers {rest : List Char} (level : Nat) : ∀ {ms : List (String × Json)},
    plainMembers ms = true → Scans (prettyMembers level ms) (tokensMembers ms) rest
  | [], _ => .newLine level (.mark rfl (.nil rest))
  | m :: ms, h => by
    obtain ⟨hm, hms⟩ := (Bool.and_eq_true _ _).mp h
    rw [prettyMembers, List.append_assoc, List.cons_append]
    exact .mark rfl (.newLine _ ((scans_prettyMember (level + 1) hm
      (delimited_members level ms rest)).append (scans_prettyMembers level hms)))

theorem scans_prettyMember {rest : List Char} (level : Nat) : ∀ {m : String × Json},
    plainMember m = true → Delimited rest → Scans (prettyMember level m) (tokensMember m) rest
  | (key, _), h, hrest => scans_key key (.blank rfl (scans_prettyText level h hrest))

end

mutual

theorem scans_compactText {rest : List Char} : ∀ {j : Json}, j.plain = true →
    Delimited rest → Scans j.compactText j.tokens rest
  | .null, _, _ => scans_null
  | .bool b, _, _ => scans_bool b
  | .int n, h, hrest => scans_ofInt (of_decide_eq_true h) hrest
  | .str s, _, _ => scans_stringText s rest
  | .arr [], _, _ => fun _ ↦ rfl
  | .obj [], _, _ => fun _ ↦ rfl
  | .arr (j :: js), h, _ => by
    obtain ⟨hj, hjs⟩ := (Bool.and_eq_true _ _).mp h
    rw [compactText, List.cons_append]
    exact .mark rfl ((scans_compactText hj (delimited_compactItems js rest)).append
      (scans_compactItems hjs))
  | .obj (m :: ms), h, _ => by
    obtain ⟨hm, hms⟩ := (Bool.and_eq_true _ _).mp h
    rw [compactText, List.cons_append]
    exact .mark rfl ((scans_compactMember hm (delimited_compactMembers ms rest)).append
      (scans_compactMembers hms))

theorem scans_compactItems {rest : List Char} : ∀ {js : List Json}, plainItems js = true →
    Scans (compactItems js) (tokensItems js) rest
  | [], _ => .mark rfl (.nil rest)
  | j :: js, h => by
    obtain ⟨hj, hjs⟩ := (Bool.and_eq_true _ _).mp h
    rw [compactItems, List.cons_append]
    exact .mark rfl ((scans_compactText hj (delimited_compactItems js rest)).append
      (scans_compactItems hjs))

theorem scans_compactMembers {rest : List Char} : ∀ {ms : List (String × Json)},
    plainMembers ms = true → Scans (compactMembers ms) (tokensMembers ms) rest
  | [], _ => .mark rfl (.nil rest)
  | m :: ms, h => by
    obtain ⟨hm, hms⟩ := (Bool.and_eq_true _ _).mp h
    rw [compactMembers, List.cons_append]
    exact .mark rfl ((scans_compactMember hm (delimited_compactMembers ms rest)).append
      (scans_compactMembers hms))

theorem scans_compactMember {rest : List Char} : ∀ {m : String × Json}, plainMember m = true →
    Delimited rest → Scans (compactMember m) (tokensMember m) rest
  | (key, _), h, hrest => scans_key key (scans_compactText h hrest)

end

theorem tokens?_of_scans {text : List Char} {tokens : List Token} (h : Scans text tokens []) :
    tokens? text = some tokens := by
  have hs := h []
  rw [List.append_nil] at hs
  rw [tokens?, hs]
  simp [scanFrom, finish]

theorem tokens?_pretty {j : Json} (h : j.plain = true) :
    tokens? j.pretty.toList = some j.tokens := by
  rw [pretty, String.toList_ofList]
  exact tokens?_of_scans (scans_prettyText 0 h (by rintro _ _ ⟨⟩))

theorem tokens?_compact {j : Json} (h : j.plain = true) :
    tokens? j.compact.toList = some j.tokens := by
  rw [compact, String.toList_ofList]
  exact tokens?_of_scans (scans_compactText h (by rintro _ _ ⟨⟩))

end CilSpan.Json
