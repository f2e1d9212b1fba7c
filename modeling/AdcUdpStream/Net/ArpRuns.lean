import AdcUdpStream.Lib.Steps
import AdcUdpStream.Net.UdpInput
import AdcUdpStream.Net.ArpBinding

/-!
# Runs of the ARP table

Packets are handed over, messages come in and the timer runs in any order, with the link
up or down and memory short at any time.
-/

namespace AdcUdpStream.Net

abbrev arpAfter (n : Netif) (es : List ArpEvent) : Etharp := Steps.final (arpStep n) {} es

theorem arpInv_run (n : Netif) (es : List ArpEvent) : ArpInv n (arpAfter n es).arpTable :=
  Steps.final_inv_of_step (I := fun a : Etharp => ArpInv n a.arpTable)
    (fun _ e ht => (arpStep_binding ht e).1) es (arpInv_start n)

theorem arpAfter_concat (n : Netif) (es : List ArpEvent) (e : ArpEvent) :
    arpAfter n (es ++ [e]) = (arpStep n (arpAfter n es) e).1 := Steps.final_append ..

/-- **The table after any run**: no two entries in use are for one address, what waits is in a
pending entry, and an entry in use is for one station and not too old. -/
theorem arp_sound (n : Netif) (es : List ArpEvent) (i j : Fin arpTableSize) :
    let t := (arpAfter n es).arpTable
    ((t i).state ≠ .empty → (t j).state ≠ .empty → (t i).ipaddr = (t j).ipaddr → i = j) ∧
      ((t i).q ≠ none → (t i).state = .pending) ∧
      ((t i).state ≠ .empty → ¬NonUnicast n (t i).ipaddr ∧ (t i).ctime < arpMaxage) ∧
      ((t i).state = .pending → (t i).ctime < arpMaxpending) := by
  intro t
  obtain ⟨hdistinct, hentries⟩ := arpInv_run n es
  obtain ⟨hwaiting, hunicast, hage, hpending⟩ := hentries i
  refine ⟨fun hi hj hkey => ?_, hwaiting, fun hi => ⟨hunicast hi, hage hi⟩, hpending⟩
  exact hdistinct i j (t j).ipaddr (has_iff.mpr ⟨hi, hkey⟩) (has_iff.mpr ⟨hj, rfl⟩)

/-! ## Addresses -/

def ArpAction.heard : ArpAction → Option EthAddr
  | .learn mac _ => some mac
  | _ => none

def lastHeard (n : Netif) (addr : UInt32) (es : List ArpEvent) : Option EthAddr :=
  (es.filterMap fun e => (e.action n addr).heard).getLast?

theorem lastHeard_concat (n : Netif) (addr : UInt32) (es : List ArpEvent) (e : ArpEvent) :
    lastHeard n addr (es ++ [e]) = (e.action n addr).heard.or (lastHeard n addr es) := by
  unfold lastHeard
  rw [List.filterMap_append, List.getLast?_append]
  congr 1
  cases he : (e.action n addr).heard <;> simp [he]

/-- A step of the machine uses the last address that was heard. -/
theorem BindingStep.lastHeard {b b' : Binding} {x : ArpAction} {out : List (Packet × EthAddr)}
    (h : BindingStep b x b' out) {last : Option EthAddr}
    (hb : ∀ mac, b = .stable mac → last = some mac) :
    (∀ mac, b' = .stable mac → x.heard.or last = some mac) ∧
      ∀ o ∈ out, x.heard.or last = some o.2 := by
  cases h with
  | learned h =>
    refine ⟨fun _ he => by rw [Binding.stable.inj he]; rfl, fun o ho => ?_⟩
    obtain ⟨q, -, rfl⟩ := List.mem_map.mp ho
    rfl
  | ignored => exact ⟨nofun, nofun⟩
  | sent =>
    refine ⟨hb, fun o ho => ?_⟩
    rw [List.mem_singleton.mp ho]
    exact hb _ rfl
  | waits => exact ⟨nofun, nofun⟩
  | kept => exact ⟨hb, nofun⟩
  | ended => exact ⟨nofun, nofun⟩

theorem heard_step {n : Netif} {a : Etharp} (ht : ArpInv n a.arpTable) {addr : UInt32}
    {es : List ArpEvent}
    (hb : ∀ mac, bindingOf a.arpTable addr = .stable mac → lastHeard n addr es = some mac)
    (e : ArpEvent) :
    (∀ mac, bindingOf (arpStep n a e).1.arpTable addr = .stable mac →
      lastHeard n addr (es ++ [e]) = some mac) ∧
    ∀ o ∈ emitsTo addr (arpStep n a e).2, lastHeard n addr (es ++ [e]) = some o.2 := by
  rw [lastHeard_concat]
  exact ((arpStep_binding ht e).2 addr).lastHeard hb

theorem heard_run (n : Netif) (addr : UInt32) (es : List ArpEvent) :
    ∀ mac, bindingOf (arpAfter n es).arpTable addr = .stable mac →
      lastHeard n addr es = some mac := by
  induction es using List.reverseRecOn with
  | nil => exact nofun
  | append_singleton es e ih =>
    rw [arpAfter_concat]
    exact (heard_step (arpInv_run n es) ih e).1

/-- **Where packets go**: a packet that the table sends to a station, at once or after it waited,
goes to the Ethernet address in the last message that came from it. -/
theorem arp_fresh (n : Netif) (es : List ArpEvent) (e : ArpEvent) (addr : UInt32) (q : Packet)
    (dst : EthAddr) (h : .ip addr q dst ∈ (arpStep n (arpAfter n es) e).2) :
    lastHeard n addr (es ++ [e]) = some dst :=
  (heard_step (arpInv_run n es) (heard_run n addr es) e).2 _ (mem_emitsTo.mpr h)

def destReply : List UInt8 :=
  [0, 1, 8, 0, 6, 4, 0, 2, 2, 0, 0, 0, 0, 5, 192, 168, 0, 5, 0, 96, 55, 18, 52, 86, 192, 168, 0,
    103]

theorem arp_fresh_reply :
    lastHeard serverNetif destNetif.ipAddr
      [.input true destReply [], .output true true none fourBytes destNetif.ipAddr] =
        some destNetif.hwaddr :=
  arp_fresh serverNetif [.input true destReply []]
    (.output true true none fourBytes destNetif.ipAddr) destNetif.ipAddr fourBytes destNetif.hwaddr
    (by decide +kernel)

/-! ## Packets -/

def ArpAction.handed : ArpAction → Option (List UInt8)
  | .hand q _ => some q.bytes
  | _ => none

def handedFor (n : Netif) (addr : UInt32) (es : List ArpEvent) : List (List UInt8) :=
  es.filterMap fun e => (e.action n addr).handed

def sentTo (addr : UInt32) (outs : List (List Emit)) : List (List UInt8) :=
  (emitsTo addr outs.flatten).map (·.1.bytes)

theorem takenOver_bytes {q p : Packet} {copied : Option Bool} (h : takenOver q copied = some p) :
    p.bytes = q.bytes := by
  cases copied with
  | none => rw [Option.some.inj h]
  | some memory =>
    cases memory with
    | false => cases h
    | true =>
      rw [← Option.some.inj h]
      exact List.append_nil _

theorem action_taken {n : Netif} {addr : UInt32} {e : ArpEvent} {q p : Packet}
    (h : e.action n addr = .hand q (some p)) : p.bytes = q.bytes := by
  cases e with
  | tmr alloc => cases h
  | input alloc m beyond =>
    simp only [ArpEvent.action, ArpEvent.subject] at h
    split at h
    · next hsubject =>
      split at hsubject
      · obtain ⟨-, rfl⟩ := Prod.mk.inj (Option.some.inj hsubject)
        split at h <;> cases h
      · cases hsubject
    · cases h
  | output linkUp alloc copied q' dst =>
    simp only [ArpEvent.action, ArpEvent.subject] at h
    split at h
    · next hsubject =>
      split at hsubject
      · obtain ⟨addr', -, heq⟩ := Option.map_eq_some_iff.mp hsubject
        obtain ⟨-, rfl⟩ := Prod.mk.inj heq
        split at h
        · obtain ⟨rfl, htaken⟩ := ArpAction.hand.inj h
          exact takenOver_bytes htaken
        · cases h
      · cases hsubject
    · cases h

def Binding.pendingBytes (b : Binding) : List (List UInt8) := b.waiting.map Packet.bytes

/-- What was sent, and what waits, was handed over in this order. -/
theorem BindingStep.inOrder {b b' : Binding} {x : ArpAction} {out : List (Packet × EthAddr)}
    (h : BindingStep b x b' out) (hx : ∀ q p, x = .hand q (some p) → p.bytes = q.bytes)
    {sent handed : List (List UInt8)} (hb : (sent ++ b.pendingBytes).Sublist handed) :
    (sent ++ out.map (·.1.bytes) ++ b'.pendingBytes).Sublist
      (handed ++ x.handed.toList) := by
  have hsent : sent.Sublist handed := (List.sublist_append_left _ _).trans hb
  cases h with
  | learned h => simpa [Binding.pendingBytes, ArpAction.handed, Function.comp_def] using hb
  | ignored => simpa [ArpAction.handed] using hb
  | sent => simpa [Binding.pendingBytes, ArpAction.handed] using hsent
  | @waits b q taken hne =>
    cases taken with
    | some p => simpa [Binding.pendingBytes, ArpAction.handed, hx q p rfl] using hsent
    | none =>
      have hkept : (Binding.pending b.waiting.head?).pendingBytes = b.pendingBytes := by
        cases b with
        | pending q => cases q <;> rfl
        | _ => rfl
      rw [Option.none_or, hkept, List.map_nil, List.append_nil]
      exact hb.trans (List.sublist_append_left _ _)
  | kept => simpa [ArpAction.handed] using hb
  | ended => simpa [Binding.pendingBytes, ArpAction.handed] using hsent

/-- **No packet is made up, sent twice or overtaken**: what the table sent to a station is a part of
what was handed over for it, in the same order and unchanged, whatever happens meanwhile. -/
theorem arp_in_order (n : Netif) (addr : UInt32) (es : List ArpEvent) :
    (sentTo addr (Steps.outs (arpStep n) {} es)).Sublist (handedFor n addr es) := by
  suffices h : (sentTo addr (Steps.outs (arpStep n) {} es) ++
      (bindingOf (arpAfter n es).arpTable addr).pendingBytes).Sublist
        (handedFor n addr es) from (List.sublist_append_left _ _).trans h
  induction es using List.reverseRecOn with
  | nil => exact List.Sublist.refl _
  | append_singleton es e ih =>
    have hstep :=
      ((arpStep_binding (arpInv_run n es) e).2 addr).inOrder (fun _ _ => action_taken) ih
    have hhanded : handedFor n addr (es ++ [e]) =
        handedFor n addr es ++ (e.action n addr).handed.toList := by
      unfold handedFor
      rw [List.filterMap_append]
      rfl
    have hsent : sentTo addr (Steps.outs (arpStep n) {} (es ++ [e])) =
        sentTo addr (Steps.outs (arpStep n) {} es) ++
          (emitsTo addr (arpStep n (arpAfter n es) e).2).map (·.1.bytes) := by
      rw [Steps.outs_append, sentTo, List.flatten_append, emitsTo_append, List.map_append]
      simp [sentTo]
    rw [hhanded, hsent, arpAfter_concat]
    exact hstep

end AdcUdpStream.Net
