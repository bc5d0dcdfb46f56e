import CilSpan.Proofs.Machine.Embed
import CilSpan.Proofs.Span.BracketForm

namespace CilSpan

namespace Frame

/-- Where the instruction that stood at a position stands now. Behind the old code this counts on
through the cleanup handler and the funnel. -/
def spot (x : Frame) (n : Nat) : Nat := place x.pieces n

def zone (x : Frame) (start size : Nat) : Zone :=
  ⟨true, ⟨x.spot start, x.spot size⟩, ⟨x.spot size, x.spot (size + 3)⟩⟩

end Frame

namespace Framed

variable {σ : Type} {b c : Body} {result : TypeName} {name : String} {hooks : Hooks} {x : Frame}
  {start n k : Nat} {i : Instr}

theorem strictMono_spot (x : Frame) : StrictMono x.spot := strictMono_place x.pieces

section

variable (h : Framed b c start result name hooks x)
include h

theorem start_lt : start < b.size := by
  obtain ⟨i, hi, -⟩ := h.regions
  exact (List.getElem?_eq_some_iff.1 hi).1

theorem size_pos : 0 < b.size := (Nat.zero_le start).trans_lt h.start_lt

theorem spot_size_add (k : Nat) : x.spot (b.size + k) = x.spot b.size + k := by
  have hl : x.pieces.length = b.size := h.spliced.length
  simp only [Frame.spot]
  rw [place_of_length_le (by omega), place_of_length_le (by omega)]
  omega

theorem getElem?_tail : c.code[x.spot (b.size + k)]? = (x.tail result hooks)[k]? := by
  have hl : x.pieces.length = b.size := h.spliced.length
  have hk : x.spot (b.size + k) = (rebuild x.pieces []).length + k := by
    rw [Frame.spot, place_of_length_le (by omega)]
    omega
  rw [h.code, hk, CilSpan.getElem?_tail]

theorem getElem?_marker : c.code[x.spot b.size]? = some ⟨x.marker, .nop⟩ :=
  h.getElem?_tail (k := 0)

theorem getElem?_exit : c.code[x.spot b.size + 1]? = some ⟨x.exit, .call hooks.exit⟩ :=
  h.spot_size_add 1 ▸ h.getElem?_tail (k := 1)

theorem getElem?_done : c.code[x.spot b.size + 2]? = some ⟨x.done, .endfinally⟩ :=
  h.spot_size_add 2 ▸ h.getElem?_tail (k := 2)

theorem getElem?_funnel :
    c.code[x.spot (b.size + 3) + k]? = (funnelCode result x.slot x.funnel x.last)[k]? := by
  rw [h.spot_size_add 3, Nat.add_assoc, ← h.spot_size_add, h.getElem?_tail]
  rw [Nat.add_comm 3 k]
  rfl

theorem position?_funnel (hc : c.labels.Nodup) :
    c.position? x.funnel = some (x.spot (b.size + 3)) := by
  have hk := h.getElem?_funnel (k := 0)
  simp only [Nat.add_zero, funnelCode] at hk
  split at hk <;> exact Body.position?_of_getElem? hc hk

theorem zones_of (hb : b.labels.Nodup) (hc : c.labels.Nodup) {zs : List Zone}
    (hz : List.Forall₂ (Zone.Of b) b.regions zs) :
    List.Forall₂ (Zone.Of c) c.regions (zs.map (Zone.move x.spot) ++ [x.zone start b.size]) := by
  obtain ⟨i, hi, hr⟩ := h.regions
  rw [hr]
  refine List.rel_append (h.spliced.zones_of h.code hc hz) (.cons ?_ .nil)
  have hm := Body.position?_of_getElem? hc h.getElem?_marker
  exact ⟨rfl, h.spliced.position? h.code hc (Body.position?_of_getElem? hb hi), hm, hm,
    h.position?_funnel hc⟩

theorem getElem?_spot (hi : b.code[n]? = some i) (hop : i.op ≠ .ret) :
    c.code[x.spot n]? = some i := by
  rw [Frame.spot, h.spliced.getElem?_main h.code hi, if_neg hop]

theorem arrival_spot_succ (hi : b.code[n]? = some i) : arrival x.pieces (n + 1) =
    x.spot n + 1 + if i.op = .ret then (returnRest result x.funnel).length else 0 := by
  obtain ⟨y, hy, -, hbehind, -⟩ := h.spliced.piece n i hi
  rw [arrival_succ hy, Frame.spot, ← List.length_map Instr.op, hbehind]
  split <;> rfl

theorem arrival_eq_spot (hn : n ≠ start) : arrival x.pieces n = x.spot n := by
  have hlen : x.pieces.length = b.size := h.spliced.length
  rcases Nat.lt_or_ge n b.size with hlt | hge
  · obtain ⟨y, hy, -, -, hahead⟩ := h.spliced.piece n _ (List.getElem?_eq_getElem hlt)
    rw [if_neg hn] at hahead
    rw [Frame.spot, place_eq_arrival hy, List.map_eq_nil_iff.1 hahead]
    rfl
  · exact arrival_of_length_le (hlen ▸ hge)

theorem spot_succ (hn : n + 1 ≠ start) (hi : b.code[n]? = some i) : x.spot (n + 1) =
    x.spot n + 1 + if i.op = .ret then (returnRest result x.funnel).length else 0 :=
  (h.arrival_eq_spot hn).symm.trans (h.arrival_spot_succ hi)

theorem getElem?_return (hi : b.code[n]? = some i) (hop : i.op = .ret) :
    c.code[x.spot n]? = some ⟨i.label, returnOp result x.slot x.funnel⟩ := by
  rw [Frame.spot, h.spliced.getElem?_main h.code hi, if_pos hop]

theorem exists_rest (hi : b.code[n]? = some i) (hop : i.op = .ret)
    (hv : result.isVoid = false) :
    ∃ l, c.code[x.spot n + 1]? = some ⟨l, .branch .leave .long x.funnel⟩ := by
  obtain ⟨y, hy, -, hbehind, -⟩ := h.spliced.piece n i hi
  simp only [hop, if_true, returnRest, hv, Bool.false_eq_true, if_false] at hbehind
  obtain ⟨⟨l, op⟩, hl, rfl⟩ := List.map_eq_singleton_iff.1 hbehind
  have hcode := holds_place h.code hy
  rw [hl] at hcode
  exact ⟨l, hcode.tail.head⟩

theorem exists_front : ∃ l l', x.spot start = arrival x.pieces start + 2 ∧
    c.code[arrival x.pieces start]? = some ⟨l, .ldstr name⟩ ∧
    c.code[arrival x.pieces start + 1]? = some ⟨l', .call hooks.enter⟩ := by
  obtain ⟨y, hy, -, -, hahead⟩ := h.spliced.piece start _ (List.getElem?_eq_getElem h.start_lt)
  rw [if_pos rfl] at hahead
  obtain ⟨⟨l, _⟩, zs, hahead', rfl, hzs⟩ := List.map_eq_cons_iff.1 hahead
  obtain ⟨⟨l', _⟩, rfl, rfl⟩ := List.map_eq_singleton_iff.1 hzs
  have hcode := holds_ahead h.code hy
  rw [hahead'] at hcode
  refine ⟨l, l', ?_, hcode.head, hcode.tail.head⟩
  rw [Frame.spot, place_eq_arrival hy, hahead']
  rfl

end

end Framed

end CilSpan
