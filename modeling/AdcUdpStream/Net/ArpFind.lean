import AdcUdpStream.Lib.Slots
import AdcUdpStream.Net.Arp

/-!
# Finding an entry

What `etharp_find_entry` returns, in a table that keeps its invariants (`ArpInv`): the
entry for the address, or a slot that is now for it (`Found`). With
`ETHARP_FLAG_TRY_HARD` there is always one.
-/

namespace AdcUdpStream.Net

open Slots

/-! ## The sweep -/

def arpReading : Reading EtharpEntry UInt32 where
  used e := e.state ≠ .empty
  key := EtharpEntry.ipaddr

theorem has_iff {e : EtharpEntry} {addr : UInt32} :
    arpReading.Has e addr ↔ e.state ≠ .empty ∧ e.ipaddr = addr := by
  simp [Reading.Has, arpReading]

theorem sweep_eq (t : ArpTable) (ipaddr : UInt32) (s : Sweep) (is : List (Fin arpTableSize)) :
    sweep t ipaddr s is =
      match is.find? fun i => arpReading.Has (t i) ipaddr with
      | some i => .inl i
      | none => .inr (is.foldl (fun s i => s.candidate i (t i)) s) := by
  induction is generalizing s with
  | nil => rfl
  | cons i is ih =>
    rw [sweep, List.find?_cons]
    by_cases h : arpReading.Has (t i) ipaddr
    · rw [if_pos (has_iff.mp h), decide_eq_true h]
    · rw [if_neg (mt has_iff.mpr h), decide_eq_false h, ih]
      rfl

/-- An age that is not 0 was taken from a slot. -/
structure Sweep.Ok (s : Sweep) : Prop where
  stable : s.ageStable ≠ 0 → s.oldStable ≠ none
  pending : s.agePending ≠ 0 → s.oldPending ≠ none
  queue : s.ageQueue ≠ 0 → s.oldQueue ≠ none

def Sweep.Found (s : Sweep) : Prop := s.empty ≠ none ∨ s.recycled ≠ none

theorem Sweep.recycled_ne {s : Sweep}
    (h : s.oldStable ≠ none ∨ s.oldPending ≠ none ∨ s.oldQueue ≠ none) : s.recycled ≠ none := by
  unfold Sweep.recycled
  rw [ne_eq, Option.or_eq_none_iff, Option.or_eq_none_iff]
  rintro ⟨h1, h2, h3⟩
  exact h.elim (· h1) (·.elim (· h2) (· h3))

/-- **Every entry** is one of those that can be taken. -/
theorem Sweep.Ok.candidate {s : Sweep} (h : s.Ok) (i : Fin arpTableSize) (e : EtharpEntry) :
    (s.candidate i e).Ok ∧ (s.candidate i e).Found := by
  obtain ⟨hs, hp, hq⟩ := id h
  have hold : ∀ {age ctime : Nat} {o : Option (Fin arpTableSize)}, ¬age ≤ ctime →
      (age ≠ 0 → o ≠ none) → o ≠ none := fun hlt ho => ho (by omega)
  unfold Sweep.candidate
  split
  · split
    · exact ⟨⟨hs, hp, hq⟩, .inl (Option.some_ne_none i)⟩
    · next hne => exact ⟨h, .inl hne⟩
  · split
    · split
      · exact ⟨⟨hs, hp, fun _ => Option.some_ne_none i⟩,
          .inr (recycled_ne (.inr (.inr (Option.some_ne_none i))))⟩
      · next hlt => exact ⟨h, .inr (recycled_ne (.inr (.inr (hold hlt hq))))⟩
    · split
      · exact ⟨⟨hs, fun _ => Option.some_ne_none i, hq⟩,
          .inr (recycled_ne (.inr (.inl (Option.some_ne_none i))))⟩
      · next hlt => exact ⟨h, .inr (recycled_ne (.inr (.inl (hold hlt hp))))⟩
  · split
    · exact ⟨⟨fun _ => Option.some_ne_none i, hp, hq⟩,
        .inr (recycled_ne (.inl (Option.some_ne_none i)))⟩
    · next hlt => exact ⟨h, .inr (recycled_ne (.inl (hold hlt hs)))⟩

theorem Sweep.Ok.foldl {t : ArpTable} (is : List (Fin arpTableSize)) {s : Sweep} (h : s.Ok)
    (hfound : s.Found ∨ is ≠ []) : (is.foldl (fun s i => s.candidate i (t i)) s).Found := by
  induction is generalizing s with
  | nil => exact hfound.resolve_right fun hne => hne rfl
  | cons i is ih =>
    obtain ⟨hok, hfound⟩ := h.candidate i (t i)
    exact ih hok (.inl hfound)

/-! ## Invariants -/

/-- What holds of an entry; `LWIP_ASSERT`s in the source rely on it. -/
structure EtharpEntry.Ok (n : Netif) (e : EtharpEntry) : Prop where
  waiting : e.q ≠ none → e.state = .pending
  unicast : e.state ≠ .empty → ¬NonUnicast n e.ipaddr
  age : e.state ≠ .empty → e.ctime < arpMaxage
  pendingAge : e.state = .pending → e.ctime < arpMaxpending

structure ArpInv (n : Netif) (t : ArpTable) : Prop where
  distinct : Distinct arpReading t
  entries : ∀ i, (t i).Ok n

theorem arpInv_start (n : Netif) : ArpInv n fun _ => {} where
  distinct := fun _ _ _ h _ => absurd rfl (has_iff.mp h).1
  entries := fun _ => ⟨fun h => absurd rfl h, fun h => absurd rfl h, fun h => absurd rfl h, nofun⟩

/-! ## One address -/

/-- What the table says about an address. -/
inductive Binding where
  | absent
  | pending (q : Option Packet)
  | stable (mac : EthAddr)

def EtharpEntry.binding (e : EtharpEntry) : Binding :=
  match e.state with
  | .empty => .absent
  | .pending => .pending e.q
  | _ => .stable e.ethaddr

def bindingOf (t : ArpTable) (addr : UInt32) : Binding :=
  ((view arpReading t addr).map EtharpEntry.binding).getD .absent

def Binding.waiting : Binding → List Packet
  | .pending q => q.toList
  | _ => []

@[simp] theorem waiting_absent : Binding.absent.waiting = [] := rfl

@[simp] theorem waiting_pending (q : Option Packet) : (Binding.pending q).waiting = q.toList := rfl

@[simp] theorem waiting_stable (mac : EthAddr) : (Binding.stable mac).waiting = [] := rfl

/-! ## What `etharp_find_entry` returns -/

section Find

variable {n : Netif} {t t' : ArpTable} {ipaddr : UInt32} {flags : EtharpFlag}
  {i : Fin arpTableSize}

theorem candidate_empty {s : Sweep} {e : EtharpEntry} {j : Fin arpTableSize}
    (h : (s.candidate i e).empty = some j) : s.empty = some j ∨ j = i ∧ e.state = .empty := by
  unfold Sweep.candidate at h
  split at h
  · next hstate =>
    split at h
    · exact .inr ⟨(Option.some.inj h).symm, hstate⟩
    · exact .inl h
  · split at h <;> split at h <;> exact .inl h
  · split at h <;> exact .inl h

theorem foldl_empty {is : List (Fin arpTableSize)} {s : Sweep}
    (h : ∀ j, s.empty = some j → (t j).state = .empty) :
    ∀ j, (is.foldl (fun s i => s.candidate i (t i)) s).empty = some j → (t j).state = .empty := by
  induction is generalizing s with
  | nil => exact h
  | cons i is ih =>
    refine ih fun j hj => ?_
    rcases candidate_empty hj with hj | ⟨rfl, hstate⟩
    · exact h j hj
    · exact hstate

/-- `etharp_find_entry` returned `i` and left `t'`: the entry for the address, or a free slot that
is now for it. -/
structure Found (n : Netif) (t : ArpTable) (ipaddr : UInt32) (flags : EtharpFlag) (t' : ArpTable)
    (i : Fin arpTableSize) : Prop where
  update : ∀ e, Function.update t' i e = Function.update t i e
  others : ∀ j, j ≠ i → ¬arpReading.Has (t j) ipaddr
  key : (t' i).ipaddr = ipaddr
  ok : (t' i).Ok n
  fresh : (t' i).state = .empty → (t' i).ctime = 0
  binding : bindingOf t ipaddr = (t' i).binding
  created : bindingOf t ipaddr = .absent → flags = .tryHard

theorem bindingOf_none (h : find arpReading t ipaddr = none) : bindingOf t ipaddr = .absent := by
  rw [bindingOf, view, h]
  rfl

theorem binding_used {e : EtharpEntry} (h : e.state ≠ .empty) : e.binding ≠ .absent := by
  unfold EtharpEntry.binding
  split
  · next he => exact absurd he h
  · exact nofun
  · exact nofun

theorem found_has (ht : ArpInv n t) (h : arpReading.Has (t i) ipaddr) :
    Found n t ipaddr flags t i := by
  have hb : bindingOf t ipaddr = (t i).binding := by
    rw [bindingOf, ht.distinct.view_eq h]
    rfl
  have hused := (has_iff.mp h).1
  exact ⟨fun _ => rfl, fun k hk hhas => hk (ht.distinct k i _ hhas h), (has_iff.mp h).2,
    ht.entries i, fun he => absurd he hused, hb,
    fun habs => absurd (hb.symm.trans habs) (binding_used hused)⟩

theorem found_created (h : find arpReading t ipaddr = none) (hflags : flags = .tryHard)
    {e : EtharpEntry} (hstate : e.state = .empty) (hq : e.q = none) (hkey : e.ipaddr = ipaddr)
    (hctime : e.ctime = 0) : Found n t ipaddr flags (Function.update t i e) i where
  update := fun e' => Function.update_idem e e' t
  others := fun j _ => find_none h j
  key := by rw [Function.update_self, hkey]
  ok := by
    rw [Function.update_self]
    exact ⟨fun h => absurd hq h, fun h => absurd hstate h, fun h => absurd hstate h,
      fun h => by rw [hstate] at h; cases h⟩
  fresh := fun _ => by rw [Function.update_self, hctime]
  binding := by rw [bindingOf_none h, Function.update_self, EtharpEntry.binding, hstate]
  created := fun _ => hflags

theorem etharpFindEntry_found (ht : ArpInv n t)
    (h : etharpFindEntry t ipaddr flags = (t', some i)) : Found n t ipaddr flags t' i := by
  unfold etharpFindEntry at h
  rw [sweep_eq] at h
  cases hf : find arpReading t ipaddr with
  | some j =>
    have hj := find_some hf
    unfold find at hf
    rw [hf] at h
    obtain ⟨rfl, hij⟩ := Prod.mk.inj h
    obtain rfl := Option.some.inj hij
    exact found_has ht hj
  | none =>
    have hnone := hf
    unfold find at hf
    rw [hf] at h
    dsimp only at h
    have hqueue : ∀ j, (t j).state = .empty → (t j).q = none := fun j hj => by
      by_contra hq
      rw [(ht.entries j).waiting hq] at hj
      cases hj
    cases flags with
    | findOnly => cases (Prod.mk.inj h).2
    | tryHard =>
      dsimp only at h
      split at h
      · next j hj =>
        obtain ⟨rfl, hij⟩ := Prod.mk.inj h
        obtain rfl := Option.some.inj hij
        have hempty := foldl_empty (t := t) (s := {}) nofun j hj
        exact found_created hnone rfl hempty (hqueue j hempty) rfl rfl
      · split at h
        · next j hj =>
          obtain ⟨rfl, hij⟩ := Prod.mk.inj h
          obtain rfl := Option.some.inj hij
          exact found_created hnone rfl rfl rfl rfl rfl
        · cases (Prod.mk.inj h).2

/-- Only `ETHARP_FLAG_FIND_ONLY` may find nothing. -/
theorem etharpFindEntry_none (h : etharpFindEntry t ipaddr flags = (t', none)) :
    t' = t ∧ flags = .findOnly ∧ bindingOf t ipaddr = .absent := by
  unfold etharpFindEntry at h
  rw [sweep_eq] at h
  cases hf : find arpReading t ipaddr with
  | some j =>
    unfold find at hf
    rw [hf] at h
    cases (Prod.mk.inj h).2
  | none =>
    have hb := bindingOf_none hf
    unfold find at hf
    rw [hf] at h
    dsimp only at h
    cases flags with
    | findOnly =>
      obtain ⟨rfl, -⟩ := Prod.mk.inj h
      exact ⟨rfl, rfl, hb⟩
    | tryHard =>
      have hok : Sweep.Ok {} := ⟨absurd rfl, absurd rfl, absurd rfl⟩
      have hfound := hok.foldl (t := t) (List.finRange arpTableSize) (.inr (List.cons_ne_nil _ _))
      dsimp only at h
      split at h
      · cases (Prod.mk.inj h).2
      · next hempty =>
        split at h
        · cases (Prod.mk.inj h).2
        · next hrec => exact (hfound.elim (· hempty) (· hrec)).elim

end Find

end AdcUdpStream.Net
