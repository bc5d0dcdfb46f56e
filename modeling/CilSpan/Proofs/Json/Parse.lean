import CilSpan.Json.Parser
import CilSpan.Proofs.Json.Layouts

namespace CilSpan.Json

/-- The first item of an array is read like any other. -/
theorem feedAll_firstItem (j : Json) (fs : List Frame) (ts : List Token) :
    feedAll (.firstItem fs) (j.tokens ++ ts) =
      feedAll (.value (.arr [] :: fs)) (j.tokens ++ ts) := by
  cases j with
  | arr items => cases items <;> rfl
  | obj members => cases members <;> rfl
  | _ => rfl

theorem feedAll_firstKey (m : String × Json) (fs : List Frame) (ts : List Token) :
    feedAll (.firstKey fs) (tokensMember m ++ ts) =
      feedAll (.key [] fs) (tokensMember m ++ ts) := by
  cases m
  rfl

theorem ofMembers_of_keys (ms : List (String × Json)) :
    ofMembers (ms.map fun m ↦ (some m.1, m.2)) = .obj ms := by
  have hkeys : (ms.map fun m ↦ ((some m.1, m.2) : Member)).mapM
      (fun (key, j) ↦ key.map (·, j)) = some ms := by
    induction ms with
    | nil => rfl
    | cons m ms ih => simp [ih]
  rw [ofMembers, hkeys]

mutual

theorem feedAll_tokens : ∀ (j : Json) (fs : List Frame) (ts : List Token),
    feedAll (.value fs) (j.tokens ++ ts) = feedAll (deliver j fs) ts
  | .null, _, _ | .bool _, _, _ | .int _, _, _ | .decimal _, _, _ | .str _, _, _ => rfl
  | .unreadable, _, _ | .arr [], _, _ | .obj [], _, _ => rfl
  | .arr (j :: js), fs, ts => by
    have hfirst := feedAll_firstItem j fs (tokensItems js ++ ts)
    have hj := feedAll_tokens j (.arr [] :: fs) (tokensItems js ++ ts)
    have hjs := feedAll_items js [j] fs ts
    rw [tokens, List.cons_append, List.append_assoc]
    exact hfirst.trans (hj.trans hjs)
  | .obj (m :: ms), fs, ts => by
    have hfirst := feedAll_firstKey m fs (tokensMembers ms ++ ts)
    have hm := feedAll_member m [] fs (tokensMembers ms ++ ts)
    have hms := feedAll_members ms [(some m.1, m.2)] fs ts
    have hall := ofMembers_of_keys (m :: ms)
    rw [tokens, List.cons_append, List.append_assoc, ← hall]
    exact hfirst.trans (hm.trans hms)

theorem feedAll_items : ∀ (js done : List Json) (fs : List Frame) (ts : List Token),
    feedAll (.afterItem done fs) (tokensItems js ++ ts) =
      feedAll (deliver (.arr (done.reverse ++ js)) fs) ts
  | [], done, fs, ts => by
    rw [List.append_nil]
    rfl
  | j :: js, done, fs, ts => by
    have hj := feedAll_tokens j (.arr done :: fs) (tokensItems js ++ ts)
    have hjs := feedAll_items js (j :: done) fs ts
    rw [List.reverse_cons, List.append_assoc, List.singleton_append] at hjs
    rw [tokensItems, List.cons_append, List.append_assoc]
    exact hj.trans hjs

theorem feedAll_members : ∀ (ms : List (String × Json)) (done : List Member) (fs : List Frame)
    (ts : List Token), feedAll (.afterMember done fs) (tokensMembers ms ++ ts) =
      feedAll (deliver (ofMembers (done.reverse ++ ms.map fun m ↦ (some m.1, m.2))) fs) ts
  | [], done, fs, ts => by
    rw [List.map_nil, List.append_nil]
    rfl
  | m :: ms, done, fs, ts => by
    have hm := feedAll_member m done fs (tokensMembers ms ++ ts)
    have hms := feedAll_members ms ((some m.1, m.2) :: done) fs ts
    rw [List.reverse_cons, List.append_assoc, List.singleton_append] at hms
    rw [tokensMembers, List.cons_append, List.append_assoc]
    exact hm.trans hms

theorem feedAll_member : ∀ (m : String × Json) (done : List Member) (fs : List Frame)
    (ts : List Token), feedAll (.key done fs) (tokensMember m ++ ts) =
      feedAll (.afterMember ((some m.1, m.2) :: done) fs) ts
  | (key, j), done, fs, ts => feedAll_tokens j (.obj done key :: fs) ts

end

theorem parse?_of_tokens {text : String} {j : Json} (h : tokens? text.toList = some j.tokens) :
    parse? text = some (j.clip maxDepth) := by
  have hfeed := feedAll_tokens j [] []
  rw [List.append_nil] at hfeed
  rw [parse?, h]
  dsimp only
  rw [hfeed]
  rfl

/-- Either layout of a plain value reads as the value, as far as values are read at all. -/
theorem parse?_pretty {j : Json} (h : j.plain = true) :
    parse? j.pretty = some (j.clip maxDepth) :=
  parse?_of_tokens (tokens?_pretty h)

theorem parse?_compact {j : Json} (h : j.plain = true) :
    parse? j.compact = some (j.clip maxDepth) :=
  parse?_of_tokens (tokens?_compact h)

end CilSpan.Json
