import AdcUdpStream.Net.ArpFind

/-!
# What the ARP table says about one address

For one address the table is a small machine (`Binding`, `BindingStep`): it is absent,
pending with a packet or without, or stable. Every step of the table keeps its
invariants, and it is a step of the machine of each address (`arpStep_binding`).
-/

namespace AdcUdpStream.Net

open Slots

/-! ## The machine of an address -/

/-- What happens to an address: a message from it, which may add it to the table, a packet for it,
with what is queued if it must wait, or something else. -/
inductive ArpAction where
  | learn (mac : EthAddr) (create : Bool)
  | hand (q : Packet) (taken : Option Packet)
  | other

/-- The machine for one address, with the packets it sends. -/
inductive BindingStep : Binding → ArpAction → Binding → List (Packet × EthAddr) → Prop
  | learned {b : Binding} {mac : EthAddr} {create : Bool} (h : create = true ∨ b ≠ .absent) :
      BindingStep b (.learn mac create) (.stable mac) (b.waiting.map (·, mac))
  | ignored {mac : EthAddr} : BindingStep .absent (.learn mac false) .absent []
  | sent {mac : EthAddr} {q : Packet} {taken : Option Packet} :
      BindingStep (.stable mac) (.hand q taken) (.stable mac) [(q, mac)]
  | waits {b : Binding} {q : Packet} {taken : Option Packet} (hb : ∀ mac, b ≠ .stable mac) :
      BindingStep b (.hand q taken) (.pending (taken.or b.waiting.head?)) []
  | kept {b : Binding} : BindingStep b .other b []
  | ended {b : Binding} : BindingStep b .other .absent []

def emitsTo (addr : UInt32) (es : List Emit) : List (Packet × EthAddr) :=
  es.filterMap fun
    | .ip a q dst => if a = addr then some (q, dst) else none
    | _ => none

/-! ## What a step does to an address -/

/-- `ipaddr` took the step `x`, and no other address took one, but it may have lost its entry. -/
structure Acts (n : Netif) (t : ArpTable) (ipaddr : UInt32) (x : ArpAction) (t' : ArpTable)
    (es : List Emit) : Prop where
  inv : ArpInv n t'
  here : BindingStep (bindingOf t ipaddr) x (bindingOf t' ipaddr) (emitsTo ipaddr es)
  elsewhere : ∀ addr, addr ≠ ipaddr →
    BindingStep (bindingOf t addr) .other (bindingOf t' addr) (emitsTo addr es)

structure Idle (n : Netif) (t t' : ArpTable) (es : List Emit) : Prop where
  inv : ArpInv n t'
  step : ∀ addr, BindingStep (bindingOf t addr) .other (bindingOf t' addr) (emitsTo addr es)

theorem idle_refl {n : Netif} {t : ArpTable} (ht : ArpInv n t) {es : List Emit}
    (hes : ∀ addr, emitsTo addr es = []) : Idle n t t es :=
  ⟨ht, fun addr => by rw [hes]; exact .kept⟩

section Emits

variable {n : Netif} {alloc : Bool} {addr ipaddr : UInt32} {hwDst : EthAddr}

theorem mem_emitsTo {es : List Emit} {q : Packet} {dst : EthAddr} :
    (q, dst) ∈ emitsTo addr es ↔ .ip addr q dst ∈ es := by
  unfold emitsTo
  rw [List.mem_filterMap]
  constructor
  · rintro ⟨e, he, heq⟩
    split at heq
    · split at heq
      · next h =>
        obtain ⟨rfl, rfl⟩ := Prod.mk.inj (Option.some.inj heq)
        rwa [← h]
      · cases heq
    · cases heq
  · exact fun h => ⟨_, h, if_pos rfl⟩

theorem emitsTo_append (es es' : List Emit) :
    emitsTo addr (es ++ es') = emitsTo addr es ++ emitsTo addr es' := List.filterMap_append

@[simp] theorem emitsTo_raw {ethdst : EthAddr} {opcode : UInt16} :
    emitsTo addr (etharpRaw n alloc ethdst hwDst ipaddr opcode) = [] := by
  unfold etharpRaw
  split <;> rfl

@[simp] theorem emitsTo_requestDst : emitsTo addr (etharpRequestDst n alloc ipaddr hwDst) = [] :=
  emitsTo_raw

@[simp] theorem emitsTo_request : emitsTo addr (etharpRequest n alloc ipaddr) = [] := emitsTo_raw

theorem emitsTo_self (ps : List Packet) (mac : EthAddr) :
    emitsTo ipaddr (ps.map fun p => .ip ipaddr p mac) = ps.map (·, mac) := by
  induction ps with
  | nil => rfl
  | cons p ps ih =>
    rw [List.map_cons, List.map_cons, ← ih, emitsTo, List.filterMap_cons]
    simp only [↓reduceIte]
    rfl

theorem emitsTo_other (hne : addr ≠ ipaddr) (ps : List Packet) (mac : EthAddr) :
    emitsTo addr (ps.map fun p => .ip ipaddr p mac) = [] := by
  induction ps with
  | nil => rfl
  | cons p ps ih =>
    rw [List.map_cons, emitsTo, List.filterMap_cons]
    simp only [if_neg (Ne.symm hne)]
    exact ih

end Emits

section Steps

variable {n : Netif} {t t' : ArpTable} {ipaddr : UInt32} {flags : EtharpFlag}
  {i : Fin arpTableSize}

theorem Found.write (h : Found n t ipaddr flags t' i) (ht : ArpInv n t) {e : EtharpEntry}
    (hkey : e.ipaddr = ipaddr) (hused : e.state ≠ .empty) (hok : e.Ok n) {x : ArpAction}
    {es : List Emit} (hes : ∀ addr, addr ≠ ipaddr → emitsTo addr es = [])
    (hstep : BindingStep (t' i).binding x e.binding (emitsTo ipaddr es)) :
    Acts n t ipaddr x (Function.update t' i e) es := by
  rw [h.update]
  have hhas : arpReading.Has e ipaddr := has_iff.mpr ⟨hused, hkey⟩
  have hdistinct : Distinct arpReading (Function.update t i e) :=
    ht.distinct.update fun k hk j hj => by
      rw [← (has_iff.mp hk).2, hkey]
      exact h.others j hj
  refine ⟨⟨hdistinct, fun j => ?_⟩, ?_, fun addr hne => ?_⟩
  · by_cases hj : j = i
    · rwa [hj, Function.update_self]
    · rw [Function.update_of_ne hj]
      exact ht.entries j
  · have hview : bindingOf (Function.update t i e) ipaddr = e.binding := by
      rw [bindingOf, hdistinct.view_update_self hhas]
      rfl
    rw [h.binding, hview]
    exact hstep
  · have hother : ¬arpReading.Has e addr := fun h' => hne ((has_iff.mp h').2.symm.trans hkey)
    have hview : bindingOf (Function.update t i e) addr =
        if arpReading.Has (t i) addr then .absent else bindingOf t addr := by
      rw [bindingOf, ht.distinct.view_update_other hdistinct hother]
      split <;> rfl
    rw [hview, hes addr hne]
    split
    · exact .ended
    · exact .kept

theorem waiting_binding {e : EtharpEntry} (h : e.Ok n) : e.binding.waiting = e.q.toList := by
  unfold EtharpEntry.binding
  cases hq : e.q with
  | none => split <;> rfl
  | some p => rw [h.waiting (by rw [hq]; exact Option.some_ne_none p)]; rfl

theorem binding_stable {e : EtharpEntry} (h : e.state.AtLeastStable) :
    e.binding = .stable e.ethaddr := by
  unfold EtharpEntry.binding
  split
  · next he => exact absurd he h.1
  · next hp => exact absurd hp h.2
  · rfl

/-- **A message from `ipaddr`** that is not a group address. -/
theorem etharpUpdateArpEntry_acts (ht : ArpInv n t) (hunicast : ¬NonUnicast n ipaddr)
    (mac : EthAddr) (flags : EtharpFlag) :
    Acts n t ipaddr (.learn mac (flags = .tryHard))
      (etharpUpdateArpEntry n t ipaddr mac flags).1
      (etharpUpdateArpEntry n t ipaddr mac flags).2 := by
  unfold etharpUpdateArpEntry
  rw [if_neg hunicast]
  cases hf : etharpFindEntry t ipaddr flags with
  | mk t' o =>
    cases o with
    | none =>
      obtain ⟨rfl, rfl, hb⟩ := etharpFindEntry_none hf
      refine ⟨ht, ?_, fun addr _ => .kept⟩
      rw [hb]
      exact .ignored
    | some i =>
      have h := etharpFindEntry_found ht hf
      have hused : EtharpState.stable ≠ .empty := by simp
      have hentry : EtharpEntry.Ok n
          { t' i with state := .stable, ethaddr := mac, ctime := 0, q := none } :=
        ⟨absurd rfl, fun _ => by show ¬NonUnicast n (t' i).ipaddr; rwa [h.key],
          fun _ => by show 0 < arpMaxage; decide, nofun⟩
      have hkey : EtharpEntry.ipaddr
          { t' i with state := .stable, ethaddr := mac, ctime := 0, q := none } = ipaddr := h.key
      refine h.write ht hkey hused hentry (fun addr hne => emitsTo_other hne _ _) ?_
      rw [emitsTo_self, ← waiting_binding h.ok, ← h.binding]
      refine .learned ?_
      by_cases hb : bindingOf t ipaddr = .absent
      · exact .inl (decide_eq_true (h.created hb))
      · exact .inr hb

/-! ## Packets to send -/

theorem not_stable_pending : ¬EtharpState.pending.AtLeastStable := fun h => h.2 rfl

theorem binding_pending {e : EtharpEntry} (h : e.state = .pending) : e.binding = .pending e.q := by
  rw [EtharpEntry.binding, h]

/-- A packet for a pending address waits, or it is refused and what waited goes on waiting. -/
theorem bindingStep_pending {e : EtharpEntry} {b : Binding} (hb : ∀ mac, b ≠ .stable mac)
    (hwaiting : b.waiting = e.q.toList) (hstate : e.state = .pending) (q : Packet)
    (taken : Option Packet) :
    BindingStep b (.hand q taken) { e with q := taken.or e.q }.binding [] := by
  have hhead : e.q = b.waiting.head? := by
    rw [hwaiting]
    cases e.q <;> rfl
  rw [binding_pending (by exact hstate), hhead]
  exact .waits hb

theorem etharpQuery_acts {a : Etharp} (ht : ArpInv n a.arpTable) (hunicast : ¬NonUnicast n ipaddr)
    (alloc : Bool) (copied : Option Bool) (q : Packet) :
    Acts n a.arpTable ipaddr (.hand q (takenOver q copied))
      (etharpQuery n alloc copied a ipaddr q).1.arpTable
      (etharpQuery n alloc copied a ipaddr q).2 := by
  unfold etharpQuery
  rw [if_neg hunicast]
  cases hf : etharpFindEntry a.arpTable ipaddr .tryHard with
  | mk t' o =>
    cases o with
    | none =>
      obtain ⟨-, hflags, -⟩ := etharpFindEntry_none hf
      cases hflags
    | some i =>
      have h := etharpFindEntry_found ht hf
      have hself : Function.update t' i (t' i) = t' := Function.update_eq_self i t'
      dsimp only
      by_cases hnew : (t' i).state = .empty
      · have hq : (t' i).q = none := by
          by_contra hq
          rw [h.ok.waiting hq] at hnew
          cases hnew
        have hb : (t' i).binding = .absent := by rw [EtharpEntry.binding, hnew]
        have hentry : ∀ p, EtharpEntry.Ok n { t' i with state := .pending, q := p } := fun p =>
          ⟨fun _ => rfl, fun _ => by show ¬NonUnicast n (t' i).ipaddr; rwa [h.key],
            fun _ => by show (t' i).ctime < _; rw [h.fresh hnew]; decide,
            fun _ => by show (t' i).ctime < _; rw [h.fresh hnew]; decide⟩
        have hkey : ∀ p, EtharpEntry.ipaddr { t' i with state := .pending, q := p } = ipaddr :=
          fun _ => h.key
        have hused : EtharpState.pending ≠ .empty := by simp
        have hstep := bindingStep_pending (e := { t' i with state := .pending })
          (b := (t' i).binding) (by simp [hb]) (by rw [hb]; exact hq ▸ rfl) rfl q
          (takenOver q copied)
        simp only [if_pos hnew, Function.update_self, if_neg not_stable_pending, Function.update_idem]
        cases hp : takenOver q copied with
        | some p =>
          rw [hp] at hstep
          exact h.write ht (hkey (some p)) hused (hentry _) (fun _ _ => emitsTo_request)
            (by rw [emitsTo_request]; exact hstep)
        | none =>
          rw [hp] at hstep
          exact h.write ht (hkey (t' i).q) hused (hentry _) (fun _ _ => emitsTo_request)
            (by rw [emitsTo_request]; exact hstep)
      · simp only [if_neg hnew]
        by_cases hst : (t' i).state.AtLeastStable
        · rw [if_pos hst]
          have hw := h.write ht h.key hnew h.ok (x := .hand q (takenOver q copied))
            (fun addr hne => emitsTo_other hne [q] (t' i).ethaddr)
            (by rw [emitsTo_self, binding_stable hst]; exact .sent)
          rwa [hself] at hw
        · have hpending : (t' i).state = .pending := by
            by_contra hne
            exact hst ⟨hnew, hne⟩
          have hb := binding_pending hpending
          have hstep := bindingStep_pending (b := (t' i).binding) (by simp [hb])
            (waiting_binding h.ok) hpending q (takenOver q copied)
          have hkey : ∀ p, EtharpEntry.ipaddr { t' i with q := some p } = ipaddr := fun _ => h.key
          have hentry : ∀ p, EtharpEntry.Ok n { t' i with q := p } := fun p =>
            ⟨fun _ => hpending, h.ok.unicast, h.ok.age, h.ok.pendingAge⟩
          simp only [if_neg hst]
          cases hp : takenOver q copied with
          | some p =>
            rw [hp] at hstep
            exact h.write ht (hkey p) hnew (hentry _) (fun _ _ => rfl) hstep
          | none =>
            rw [hp] at hstep
            have hw : Acts n a.arpTable ipaddr (.hand q none) (Function.update t' i (t' i)) [] :=
              h.write ht h.key hnew h.ok (fun _ _ => rfl) hstep
            rwa [hself] at hw

theorem etharpOutputToArpIndex_acts {a : Etharp} (ht : ArpInv n a.arpTable)
    (hst : (a.arpTable i).StableFor ipaddr) (alloc : Bool) (q : Packet) (taken : Option Packet) :
    Acts n a.arpTable ipaddr (.hand q taken) (etharpOutputToArpIndex n alloc a q i).1.arpTable
      (etharpOutputToArpIndex n alloc a q i).2 := by
  obtain ⟨hstable, rfl⟩ := hst
  have h : Found n a.arpTable (a.arpTable i).ipaddr .tryHard a.arpTable i :=
    found_has ht (has_iff.mpr ⟨hstable.1, rfl⟩)
  have hself : Function.update a.arpTable i (a.arpTable i) = a.arpTable :=
    Function.update_eq_self i a.arpTable
  unfold etharpOutputToArpIndex
  dsimp only
  generalize hreq : (if (a.arpTable i).state = .stable then _ else _ : List Emit) = requests
  have hnone : ∀ addr, emitsTo addr requests = [] := by
    intro addr
    rw [← hreq]
    split
    · split
      · exact emitsTo_request
      · split
        · exact emitsTo_requestDst
        · rfl
    · rfl
  have hother : ∀ addr, addr ≠ (a.arpTable i).ipaddr →
      emitsTo addr (requests ++ [.ip (a.arpTable i).ipaddr q (a.arpTable i).ethaddr]) = [] :=
    fun addr hne => by
      rw [emitsTo_append, hnone]
      exact emitsTo_other hne [q] (a.arpTable i).ethaddr
  have hstep : BindingStep (a.arpTable i).binding (.hand q taken) (.stable (a.arpTable i).ethaddr)
      (emitsTo (a.arpTable i).ipaddr
        (requests ++ [.ip (a.arpTable i).ipaddr q (a.arpTable i).ethaddr])) := by
    rw [emitsTo_append, hnone, binding_stable hstable,
      show emitsTo (a.arpTable i).ipaddr [.ip (a.arpTable i).ipaddr q (a.arpTable i).ethaddr] =
        [(q, (a.arpTable i).ethaddr)] from emitsTo_self [q] (a.arpTable i).ethaddr]
    exact .sent
  split
  · have hw := h.write ht rfl hstable.1 h.ok hother (x := .hand q taken)
      (by rw [binding_stable hstable] at hstep ⊢; exact hstep)
    rwa [hself] at hw
  · have hkey : EtharpEntry.ipaddr { a.arpTable i with state := .stableRerequesting1 } =
        (a.arpTable i).ipaddr := rfl
    have hused : EtharpState.stableRerequesting1 ≠ .empty := by simp
    have hentry : EtharpEntry.Ok n { a.arpTable i with state := .stableRerequesting1 } :=
      ⟨fun hq => absurd (h.ok.waiting hq) hstable.2, fun _ => h.ok.unicast hstable.1,
        fun _ => h.ok.age hstable.1, nofun⟩
    exact h.write ht hkey hused hentry hother hstep

/-- **`etharp_output`** to one station: a stable entry for it is used, or it is asked for. -/
theorem etharpOutput_acts {a : Etharp} (ht : ArpInv n a.arpTable) {dst : UInt32}
    (hbroadcast : ip4AddrIsbroadcast dst n = false) (hmulticast : ip4AddrIsmulticast dst = false)
    (hdst : etharpDstAddr n dst = some ipaddr) (hunicast : ¬NonUnicast n ipaddr) (alloc : Bool)
    (copied : Option Bool) (q : Packet) :
    Acts n a.arpTable ipaddr (.hand q (takenOver q copied))
      (etharpOutput n alloc copied a q dst).1.arpTable (etharpOutput n alloc copied a q dst).2 := by
  unfold etharpOutput
  simp only [hbroadcast, hmulticast, hdst, Bool.false_eq_true, ↓reduceIte]
  split
  · next hst => exact etharpOutputToArpIndex_acts ht hst alloc q _
  · split
    · next i hi =>
      have hst : (a.arpTable i).StableFor ipaddr := by simpa using List.find?_some hi
      exact etharpOutputToArpIndex_acts (a := { a with etharpCachedEntry := i }) ht hst alloc q _
    · exact etharpQuery_acts ht hunicast alloc copied q

/-! ## Every call -/

/-- The station of the table that a packet is for. -/
def handedTo (n : Netif) (ipaddr : UInt32) : Option UInt32 :=
  if ip4AddrIsbroadcast ipaddr n ∨ ip4AddrIsmulticast ipaddr then none
  else (etharpDstAddr n ipaddr).filter fun addr => ¬NonUnicast n addr

theorem handedTo_some {dst : UInt32} (h : handedTo n dst = some ipaddr) :
    ip4AddrIsbroadcast dst n = false ∧ ip4AddrIsmulticast dst = false ∧
      etharpDstAddr n dst = some ipaddr ∧ ¬NonUnicast n ipaddr := by
  unfold handedTo at h
  split at h
  · cases h
  · next hgroup =>
    obtain ⟨hdst, hunicast⟩ := Option.filter_eq_some_iff.mp h
    obtain ⟨hbroadcast, hmulticast⟩ := not_or.mp hgroup
    exact ⟨Bool.eq_false_iff.mpr hbroadcast, Bool.eq_false_iff.mpr hmulticast, hdst,
      of_decide_eq_true hunicast⟩

/-- The address that takes a step, and which. -/
def ArpEvent.subject (n : Netif) : ArpEvent → Option (UInt32 × ArpAction)
  | .output linkUp _ copied q ipaddr =>
    if linkUp then (handedTo n ipaddr).map (·, .hand q (takenOver q copied)) else none
  | .input _ p beyond =>
    let h := etharpHdrAt (p ++ beyond)
    if h.Ok ∧ ¬NonUnicast n h.sipaddr then
      some (h.sipaddr, .learn h.shwaddr (h.forUs n))
    else none
  | .tmr _ => none

def ArpEvent.action (n : Netif) (addr : UInt32) (e : ArpEvent) : ArpAction :=
  match e.subject n with
  | some (ipaddr, x) => if ipaddr = addr then x else .other
  | none => .other

theorem not_stableFor (ht : ArpInv n t) (h : NonUnicast n ipaddr) : ¬(t i).StableFor ipaddr :=
  fun hst => (ht.entries i).unicast hst.1.1 (hst.2 ▸ h)

theorem etharpOutput_idle {a : Etharp} (ht : ArpInv n a.arpTable) {dst : UInt32}
    (h : handedTo n dst = none) (alloc : Bool) (copied : Option Bool) (q : Packet) :
    Idle n a.arpTable (etharpOutput n alloc copied a q dst).1.arpTable
      (etharpOutput n alloc copied a q dst).2 := by
  unfold etharpOutput
  split
  · exact idle_refl ht fun _ => rfl
  · next hbroadcast =>
    split
    · exact idle_refl ht fun _ => rfl
    · next hmulticast =>
      rw [handedTo, if_neg (not_or.mpr ⟨hbroadcast, hmulticast⟩)] at h
      cases hdst : etharpDstAddr n dst with
      | none => exact idle_refl ht fun _ => rfl
      | some ipaddr =>
        have hgroup : NonUnicast n ipaddr := by
          rw [hdst] at h
          simpa using h
        -- neither the cached entry nor any other is for it, and the query refuses it
        have hfind : ((List.finRange arpTableSize).find? fun i =>
            (a.arpTable i).StableFor ipaddr) = none :=
          List.find?_eq_none.mpr fun i _ => by simpa using not_stableFor ht hgroup
        simp only [if_neg (not_stableFor ht hgroup), hfind, etharpQuery, if_pos hgroup]
        exact idle_refl ht fun _ => rfl

theorem tmrEntry_ok {e : EtharpEntry} (h : e.Ok n) : (tmrEntry e).1.Ok n := by
  have hfree : ∀ e : EtharpEntry, (etharpFreeEntry e).Ok n := fun e =>
    ⟨absurd rfl, absurd rfl, absurd rfl, nofun⟩
  unfold tmrEntry
  split
  · exact h
  · next hused =>
    dsimp only
    split
    · exact hfree _
    · next hage =>
      obtain ⟨hmax, hpending⟩ := not_or.mp hage
      have hlt : e.ctime + 1 < arpMaxage := Nat.lt_of_not_le hmax
      have hunicast := h.unicast hused
      have hq : e.q ≠ none → e.state = .pending := h.waiting
      have hp : e.state = .pending → e.ctime + 1 < arpMaxpending := fun hp =>
        Nat.lt_of_not_le fun hle => hpending ⟨hp, hle⟩
      split
      · next hstate =>
        exact ⟨fun hne => absurd ((hq hne).symm.trans hstate) nofun, fun _ => hunicast,
          fun _ => hlt, fun h => absurd h nofun⟩
      · next hstate =>
        exact ⟨fun hne => absurd ((hq hne).symm.trans hstate) nofun, fun _ => hunicast,
          fun _ => hlt, fun h => absurd h nofun⟩
      · exact ⟨hq, fun _ => hunicast, fun _ => hlt, hp⟩
      · exact ⟨hq, fun _ => hunicast, fun _ => hlt, hp⟩

theorem tmrEntry_keeps {e : EtharpEntry} {addr : UInt32}
    (h : arpReading.Has (tmrEntry e).1 addr) :
    arpReading.Has e addr ∧ (tmrEntry e).1.binding = e.binding := by
  rw [has_iff] at h ⊢
  unfold tmrEntry at h ⊢
  split
  · next he =>
    rw [if_pos he] at h
    exact absurd he h.1
  · next hused =>
    rw [if_neg hused] at h
    dsimp only at h ⊢
    split
    · next hage =>
      rw [if_pos hage] at h
      exact absurd rfl h.1
    · next hage =>
      rw [if_neg hage] at h
      cases hstate : e.state with
      | empty => exact absurd hstate hused
      | _ => simp_all [EtharpEntry.binding]

theorem etharpTmr_idle {a : Etharp} (ht : ArpInv n a.arpTable)
    (alloc : Fin arpTableSize → Bool) :
    Idle n a.arpTable (etharpTmr n alloc a).1.arpTable (etharpTmr n alloc a).2 := by
  have hhas : ∀ j k, arpReading.Has ((etharpTmr n alloc a).1.arpTable j) k →
      arpReading.Has (a.arpTable j) k := fun j k h => (tmrEntry_keeps h).1
  have hemits : ∀ addr, emitsTo addr (etharpTmr n alloc a).2 = [] := fun addr => by
    unfold etharpTmr emitsTo
    rw [List.filterMap_flatMap, List.flatMap_eq_nil_iff]
    intro i _
    split
    · exact emitsTo_request
    · rfl
  refine ⟨⟨ht.distinct.of_has hhas, fun i => tmrEntry_ok (ht.entries i)⟩, fun addr => ?_⟩
  rw [hemits]
  cases hv : view arpReading a.arpTable addr with
  | none =>
    have hnone := view_none fun j hj => not_has_of_view hv j (hhas j addr hj)
    rw [bindingOf, bindingOf, hv, hnone]
    exact .kept
  | some e =>
    obtain ⟨i, rfl, hi⟩ := view_some hv
    rw [bindingOf, bindingOf, hv, ht.distinct.view_of_has hhas hi]
    split
    · next h =>
      have hb : ((etharpTmr n alloc a).1.arpTable i).binding = (a.arpTable i).binding :=
        (tmrEntry_keeps h).2
      rw [Option.map_some, Option.map_some, hb]
      exact .kept
    · exact .ended

theorem Acts.append {x : ArpAction} {es es' : List Emit} (h : Acts n t ipaddr x t' es)
    (hes : ∀ addr, emitsTo addr es' = []) : Acts n t ipaddr x t' (es ++ es') := by
  obtain ⟨hinv, hhere, helse⟩ := h
  refine ⟨hinv, ?_, fun addr hne => ?_⟩
  · rwa [emitsTo_append, hes, List.append_nil]
  · rw [emitsTo_append, hes, List.append_nil]
    exact helse addr hne

/-- **A step of the table** is a step of the machine of its subject, and of no other. -/
theorem arpStep_acts {a : Etharp} (ht : ArpInv n a.arpTable) (e : ArpEvent) :
    match e.subject n with
    | some (ipaddr, x) =>
      Acts n a.arpTable ipaddr x (arpStep n a e).1.arpTable (arpStep n a e).2
    | none => Idle n a.arpTable (arpStep n a e).1.arpTable (arpStep n a e).2 := by
  cases e with
  | tmr alloc => exact etharpTmr_idle ht alloc
  | output linkUp alloc copied q dst =>
    cases linkUp with
    | false => exact idle_refl ht fun _ => rfl
    | true =>
      cases hto : handedTo n dst with
      | none =>
        simp only [ArpEvent.subject, hto, ↓reduceIte, Option.map_none]
        exact etharpOutput_idle ht hto alloc copied q
      | some ipaddr =>
        simp only [ArpEvent.subject, hto, ↓reduceIte, Option.map_some]
        obtain ⟨hbroadcast, hmulticast, hdst, hunicast⟩ := handedTo_some hto
        exact etharpOutput_acts ht hbroadcast hmulticast hdst hunicast alloc copied q
  | input alloc p beyond =>
    simp only [ArpEvent.subject, arpStep, etharpInput]
    generalize etharpHdrAt (p ++ beyond) = h
    have hreply : ∀ addr, emitsTo addr
        (if h.opcode = lwipHtons arpRequest ∧ h.forUs n = true ∧ h.fromUs n = false then
          etharpRaw n alloc h.shwaddr h.shwaddr h.sipaddr arpReply else []) = [] := by
      intro addr
      split
      · exact emitsTo_raw
      · rfl
    by_cases hok : h.Ok
    · rw [if_pos hok]
      by_cases hgroup : NonUnicast n h.sipaddr
      · rw [if_neg fun h => h.2 hgroup, etharpUpdateArpEntry, if_pos hgroup]
        exact idle_refl ht hreply
      · have hacts := etharpUpdateArpEntry_acts ht hgroup h.shwaddr
          (if h.forUs n then .tryHard else .findOnly)
        have hflag : decide ((if h.forUs n then EtharpFlag.tryHard else .findOnly) = .tryHard) =
            h.forUs n := by cases h.forUs n <;> rfl
        rw [hflag] at hacts
        rw [if_pos ⟨hok, hgroup⟩]
        exact hacts.append hreply
    · rw [if_neg fun h => hok h.1, if_neg hok]
      exact idle_refl ht fun _ => rfl

theorem arpStep_binding {a : Etharp} (ht : ArpInv n a.arpTable) (e : ArpEvent) :
    ArpInv n (arpStep n a e).1.arpTable ∧
      ∀ addr, BindingStep (bindingOf a.arpTable addr) (e.action n addr)
        (bindingOf (arpStep n a e).1.arpTable addr) (emitsTo addr (arpStep n a e).2) := by
  have hacts := arpStep_acts ht e
  unfold ArpEvent.action
  cases hsubject : e.subject n with
  | none =>
    rw [hsubject] at hacts
    exact ⟨hacts.inv, hacts.step⟩
  | some s =>
    obtain ⟨ipaddr, x⟩ := s
    rw [hsubject] at hacts
    refine ⟨hacts.inv, fun addr => ?_⟩
    by_cases h : ipaddr = addr
    · subst h
      simp only [↓reduceIte]
      exact hacts.here
    · simp only [if_neg h]
      exact hacts.elsewhere addr (Ne.symm h)

end Steps

end AdcUdpStream.Net
