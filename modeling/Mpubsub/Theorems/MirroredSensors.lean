import Mpubsub.Node.Sensor
import Mpubsub.Theorems.EndToEnd

/-!
# Mirrored sensors

A sensor in the mode `publish` and one in the mode `subscribe` on the same topic: the second shows
the state of the first to six digits, and a state of six digits as it is (`sensor_mirrored`). The
state that it shows has the same text again, so sensors that pass a state on do not wear it down:
however many there are, they all show what the first of them shows (`relays_agree`).
-/

namespace Mpubsub.Theorems

open Mpubsub.Lib Mpubsub.Lib.Ieee754 Mpubsub.Wire Mpubsub.Node Mpubsub.Node.MulticastPubSub
open MulticastSensor (received mirrored)

variable {κ κ' : Type}

/-- The magnitude of a state. -/
def magnitude (state : UInt32) : Nat := state.toNat % 2 ^ 31

/-- `w` is what a sensor shows for `v`: the same text, the same sign, the same number if six digits
are enough for it, and else nearly the same. -/
structure Mirrors (v w : UInt32) : Prop where
  text : snprintf w = snprintf v
  sign : 2 ^ 31 ≤ w.toNat ↔ 2 ^ 31 ≤ v.toNat
  nan : binary32.infinity < magnitude w ↔ binary32.infinity < magnitude v
  infinite : magnitude v = binary32.infinity → w = v
  exact : ∀ d : Decimal 5, magnitude v = binary32.nearest d.value → w = v
  finite : magnitude v < binary32.infinity → magnitude w < binary32.infinity ∧
    |binary32.value (magnitude w) - binary32.value (magnitude v)| ≤
      binary32.value (magnitude v) / 10 ^ 5

section

variable (nan : Bytes → binary32.NaN) (v : UInt32)

theorem magnitude_mirrored :
    magnitude (mirrored nan v) = binary32.rereadMagnitude nan 5 (magnitude v) := by
  have hlt := rereadMagnitude_lt nan (magnitude v)
  unfold magnitude at hlt ⊢
  rw [toNat_mirrored]
  show ((if 2 ^ 31 ≤ v.toNat then 2 ^ 31 else 0) + _) % 2 ^ 31 = _
  split
  · rw [Nat.add_mod_left]
    exact Nat.mod_eq_of_lt hlt
  · rw [Nat.zero_add]
    exact Nat.mod_eq_of_lt hlt

theorem sign_mirrored : 2 ^ 31 ≤ (mirrored nan v).toNat ↔ 2 ^ 31 ≤ v.toNat := by
  have hlt := rereadMagnitude_lt nan (v.toNat % 2 ^ 31)
  rw [toNat_mirrored]
  show 2 ^ 31 ≤ (if 2 ^ 31 ≤ v.toNat then 2 ^ 31 else 0) + _ ↔ _
  split
  · rename_i hneg
    exact ⟨fun _ => hneg, fun _ => Nat.le_add_right _ _⟩
  · rename_i hpos
    rw [Nat.zero_add]
    exact ⟨fun hle => absurd hle (Nat.not_le_of_lt hlt), fun hneg => absurd hneg hpos⟩

theorem mirrored_eq_of_rereadMagnitude
    (h : binary32.rereadMagnitude nan 5 (magnitude v) = magnitude v) : mirrored nan v = v := by
  have hmagnitude := (magnitude_mirrored nan v).trans h
  have hsign := sign_mirrored nan v
  have hv := v.toNat_lt
  have hw := (mirrored nan v).toNat_lt
  unfold magnitude at hmagnitude
  refine UInt32.toNat_inj.mp ?_
  omega

/-- A finite magnitude is read as a finite one, and nearly as itself. -/
theorem rereadMagnitude_finite {m : Nat} (hm : m < binary32.infinity) :
    binary32.rereadMagnitude nan 5 m < binary32.infinity ∧
      |binary32.value (binary32.rereadMagnitude nan 5 m) - binary32.value m| ≤
        binary32.value m / 10 ^ 5 := by
  unfold Format.rereadMagnitude
  rw [if_neg (Nat.not_lt_of_lt hm), if_neg (Nat.ne_of_lt hm)]
  split
  · rename_i hzero
    subst hzero
    refine ⟨hm, ?_⟩
    rw [sub_self, abs_zero]
    exact div_nonneg (div_nonneg (Nat.cast_nonneg _) (by positivity)) (by norm_num)
  · rename_i hne
    have hfinite := reread_lt_infinity hm (Format.value_pos hne)
    exact ⟨hfinite,
      Format.abs_value_reread_sub_le binary32_reprints (Format.value_pos hne) hm hfinite⟩

/-- A NaN is read as a NaN, and nothing else is. -/
theorem infinity_lt_rereadMagnitude_iff (m : Nat) :
    binary32.infinity < binary32.rereadMagnitude nan 5 m ↔ binary32.infinity < m := by
  rcases Nat.lt_trichotomy m binary32.infinity with hfinite | rfl | hnan
  · have hread := (rereadMagnitude_finite nan hfinite).1
    exact ⟨fun h => absurd h (Nat.not_lt_of_lt hread), fun h => absurd h (Nat.not_lt_of_lt hfinite)⟩
  · unfold Format.rereadMagnitude
    rw [if_neg (Nat.lt_irrefl _), if_pos rfl]
  · unfold Format.rereadMagnitude
    rw [if_pos hnan]
    exact ⟨fun _ => hnan, fun _ => (nan []).2.1⟩

/-- Six digits are read as the number that they have been printed for. -/
theorem rereadMagnitude_nearest {m : Nat} {d : Decimal 5} (h : m = binary32.nearest d.value) :
    binary32.rereadMagnitude nan 5 m = m := by
  have hle : m ≤ binary32.infinity := h ▸ Nat.min_le_right _ _
  unfold Format.rereadMagnitude
  rw [if_neg (Nat.not_lt_of_le hle)]
  split
  · rfl
  split
  · rename_i hzero
    exact hzero.symm
  · rename_i hinf hne
    exact Format.reread_nearest binary32_reprints (Format.value_pos hne) h
      (Nat.lt_of_le_of_ne hle hinf)

theorem mirrors_mirrored : Mirrors v (mirrored nan v) where
  text := snprintf_mirrored nan v
  sign := sign_mirrored nan v
  nan := by
    rw [magnitude_mirrored]
    exact infinity_lt_rereadMagnitude_iff nan (magnitude v)
  infinite := by
    intro hinf
    refine mirrored_eq_of_rereadMagnitude nan v ?_
    rw [Format.rereadMagnitude, if_neg (Nat.not_lt_of_le hinf.le), if_pos hinf]
  exact := by
    intro d hd
    exact mirrored_eq_of_rereadMagnitude nan v (rereadMagnitude_nearest nan hd)
  finite := by
    intro hfinite
    rw [magnitude_mirrored]
    exact rereadMagnitude_finite nan hfinite

end

/-! ## One hop -/

/-- Whatever the packet of a state makes a node call with the body, a sensor reads the mirrored
state from it. -/
theorem received_of_sent (nan : Bytes → binary32.NaN) {p : MulticastPubSub κ'}
    {r : MulticastPubSub κ} {sensor : MulticastSensor} {env : PublishEnv} {clock : Option UInt32}
    {v : UInt32} {sent : Sent} {inv : Invocation κ}
    (hkey : p.encryptionEnabled = true → r.encryptionKeyBytes = p.encryptionKeyBytes)
    (hsent : sent ∈ (sensor.stateChanged p env v).2)
    (hinv : inv ∈ (r.onPacket sent.datagram clock).2) :
    received nan inv.body = some (mirrored nan v) := by
  obtain ⟨hsize, hdatagram⟩ := mem_stateChanged hsent
  rw [hdatagram] at hinv
  rcases onPacket_datagram_cases hsize env sensor.topic .RAW clock hkey with hnone | hdelivered
  · rw [hnone] at hinv
    cases hinv
  · rw [hdelivered, deliver_invocations] at hinv
    obtain ⟨sub, -, hcall⟩ := List.mem_flatMap.mp hinv
    obtain ⟨cb, -, rfl⟩ := List.mem_map.mp hcall
    exact received_snprintf nan v

/-- A callback of the topic is among those that a text on it should lead to. -/
theorem mem_expectedCalls {topic : Bytes} {cb : κ} {subs : List (Subscription κ)}
    (h : Subscribed topic cb subs) (hnodup : (subs.map (·.topic)).Nodup) (payload : Bytes) :
    ⟨topic, cb, payload⟩ ∈ expectedCalls subs topic .RAW payload := by
  obtain ⟨sub, hsub, rfl, hcb⟩ := h
  have hfind : subs.find? (fun s => s.topic = sub.topic) = some sub := by
    rw [← List.head?_filter, filter_topic_eq hnodup hsub]
    rfl
  unfold expectedCalls
  rw [hfind]
  exact List.mem_map_of_mem hcb

theorem length_snprintf_le_effectiveMax (p : MulticastPubSub κ') (v : UInt32) :
    (snprintf v).length ≤ p.effectiveMax := by
  have hlength := length_snprintf_lt v
  have hmin : BUF_SIZE ≤ p.effectiveMax := by
    unfold effectiveMax
    split <;> decide
  omega

theorem stateChanged_sends {p : MulticastPubSub κ'} (hsocket : p.socket = true) (topic : Bytes)
    (requireEncryption : Bool) (env : PublishEnv) (v : UInt32) :
    ((sensorToCode topic .MODE_PUBLISH requireEncryption).stateChanged p env v).2 =
      [⟨p.datagram env topic (snprintf v) .RAW, topicToGroup topic p.scope⟩] := by
  show (p.publish env topic (snprintf v) .RAW).2.1 = _
  rw [publish_sends hsocket (length_snprintf_le_effectiveMax p v)]

theorem sent_mem_stateChanged {p : MulticastPubSub κ'} (hsocket : p.socket = true) (topic : Bytes)
    (requireEncryption : Bool) (env : PublishEnv) (v : UInt32) :
    ⟨p.datagram env topic (snprintf v) .RAW, topicToGroup topic p.scope⟩ ∈
      ((sensorToCode topic .MODE_PUBLISH requireEncryption).stateChanged p env v).2 := by
  rw [stateChanged_sends hsocket]
  exact List.mem_singleton_self _

/-- A node whose guard takes the packet calls a callback that is subscribed. -/
theorem called_of_subscribed {p : MulticastPubSub κ'} {r : MulticastPubSub κ} {topic : Bytes}
    {cb : κ} (env : PublishEnv) (clock : Option UInt32) (v : UInt32)
    (hok : SubscriptionsOk r.scope r.subscriptions) (hcb : Subscribed topic cb r.subscriptions)
    (hkey : p.encryptionEnabled = true →
      r.encryptionEnabled = true ∧ r.encryptionKeyBytes = p.encryptionKeyBytes)
    (hreplay : p.encryptionEnabled = true →
      (replayCheck r.replayGuard clock (replayTimestamp env.clock) env.random0).2 = true)
    (hreq : ∀ sub ∈ r.subscriptions, sub.topic = topic → sub.requireEncryption = true →
      p.encryptionEnabled = true) :
    ⟨topic, cb, snprintf v⟩ ∈ (r.onPacket (p.datagram env topic (snprintf v) .RAW) clock).2 := by
  have htakes : ∀ sub ∈ r.subscriptions, sub.topic = topic →
      sub.Takes (topicCrc32 topic) p.encryptionEnabled := by
    intro sub hsub htopic
    exact ⟨by rw [hok.crc_eq sub hsub, htopic], hreq sub hsub htopic⟩
  have hcalls := (filter_deliver hok.nodup htakes).trans
    (dispatch_eq_expected r.subscriptions topic .RAW (snprintf v))
  have hcall := mem_expectedCalls hcb hok.nodup (snprintf v)
  rw [← hcalls] at hcall
  rw [onPacket_datagram (length_snprintf_le_effectiveMax p v) env topic .RAW clock hkey hreplay]
  exact List.mem_of_mem_filter hcall

/-- **A sensor is mirrored**: its new state goes out in one datagram. A receiving sensor that a
node with the same key has set up takes a mirror of the state from it, if it is called, and it is
called if the guard takes the packet. -/
theorem sensor_mirrored (nan : Bytes → binary32.NaN) {p : MulticastPubSub κ'}
    (hsocket : p.socket = true) (topic : Bytes) (requireEncryption : Bool) (env : PublishEnv)
    (v : UInt32) :
    let sensor := sensorToCode topic .MODE_PUBLISH requireEncryption
    (snprintf v).length < BUF_SIZE ∧ ∃ datagram w, Mirrors v w ∧
      (sensor.stateChanged p env v).2 = [⟨datagram, topicToGroup topic p.scope⟩] ∧
      ∀ (parent : MulticastPubSub κ) (cb : κ) (required : Bool) (events : List (Event κ))
        (clock : Option UInt32), Reachable parent →
        let r := machine.exec ((sensorToCode topic .MODE_SUBSCRIBE required).setup parent cb) events
        (p.encryptionEnabled = true →
          r.encryptionEnabled = true ∧ r.encryptionKeyBytes = p.encryptionKeyBytes) →
        (∀ inv ∈ (r.onPacket datagram clock).2, received nan inv.body = some w) ∧
          ((p.encryptionEnabled = true →
              (replayCheck r.replayGuard clock (replayTimestamp env.clock) env.random0).2 = true) →
            (∀ sub ∈ r.subscriptions, sub.topic = topic → sub.requireEncryption = true →
              p.encryptionEnabled = true) →
            ∃ inv ∈ (r.onPacket datagram clock).2, inv.topic = topic ∧ inv.callback = cb) := by
  intro sensor
  refine ⟨length_snprintf_lt v, _, mirrored nan v, mirrors_mirrored nan v,
    stateChanged_sends hsocket topic requireEncryption env v, ?_⟩
  intro parent cb required events clock hreach r hkey
  have hwf : WellFormed r := Machine.exec_invariant machine step_wellFormed
    (step_wellFormed parent (.subscribe topic cb required) hreach.wellFormed) events
  have hsubscribed : Subscribed topic cb r.subscriptions :=
    subscribed_setup parent topic cb required events
  refine ⟨?_, ?_⟩
  · intro inv hinv
    exact received_of_sent nan (fun hon => (hkey hon).2)
      (sent_mem_stateChanged hsocket topic requireEncryption env v) hinv
  · intro hreplay hreq
    exact ⟨_, called_of_subscribed env clock v hwf.subscriptions hsubscribed hkey hreplay hreq,
      rfl, rfl⟩

/-- `sensor_mirrored` for a thermometer at 21.5 degrees with a key, whose state stays what it is. -/
theorem sensor_mirrored_thermometer :
    let nan : Bytes → binary32.NaN := fun _ => ⟨0x7FC00000, by decide, by decide⟩
    let p : MulticastPubSub Nat := { socket := true, encryptionEnabled := true }
    let r : MulticastPubSub Nat := machine.exec ((sensorToCode [116] .MODE_SUBSCRIBE true).setup
      { encryptionEnabled := true } 5) [.subscribe [116] 6 false]
    ∃ datagram, ((sensorToCode [116] .MODE_PUBLISH false).stateChanged p
        { random0 := 7, clock := some 100 } 0x41AC0000).2 =
          [⟨datagram, topicToGroup [116] .LINK_LOCAL⟩] ∧
      (∀ inv ∈ (r.onPacket datagram none).2, received nan inv.body = some 0x41AC0000) ∧
        ∃ inv ∈ (r.onPacket datagram none).2, inv.topic = [116] ∧ inv.callback = 5 := by
  intro nan p r
  obtain ⟨-, datagram, w, hmirrors, hsent, hreceive⟩ := @sensor_mirrored Nat Nat nan p rfl [116]
    false { random0 := 7, clock := some 100 } 0x41AC0000
  obtain ⟨hread, hcalled⟩ := hreceive { encryptionEnabled := true } 5 true
    [.subscribe [116] 6 false] none ⟨_, [], ⟨rfl, rfl, rfl, 0, rfl⟩, rfl⟩ (fun _ => ⟨rfl, rfl⟩)
  have hexact : w = 0x41AC0000 := by
    refine hmirrors.exact ⟨215000, 1, by decide, by decide⟩ ?_
    have hvalue : (Decimal.mk 215000 1 (by decide) (by decide) : Decimal 5).value =
        binary32.value 0x41AC0000 := by
      norm_num [Decimal.value, Decimal.unit, Format.value, Format.units, Format.scale, binary32]
    rw [hvalue, Format.nearest_value (by decide)]
    rfl
  exact ⟨datagram, hsent, hexact ▸ hread, hcalled (fun _ => rfl) fun _ _ _ _ => rfl⟩

/-! ## Relays -/

/-- A state that a sensor sends arrives as the state of a sensor on another node. -/
inductive Hop (κ κ' : Type) (nan : Bytes → binary32.NaN) : UInt32 → UInt32 → Prop
  | arrives {p : MulticastPubSub κ'} {r : MulticastPubSub κ} {sensor : MulticastSensor}
      {env : PublishEnv} {clock : Option UInt32} {v w : UInt32} {sent : Sent} {inv : Invocation κ}
      (key : p.encryptionEnabled = true → r.encryptionKeyBytes = p.encryptionKeyBytes)
      (sends : sent ∈ (sensor.stateChanged p env v).2)
      (calls : inv ∈ (r.onPacket sent.datagram clock).2)
      (receives : received nan inv.body = some w) : Hop κ κ' nan v w

theorem Hop.eq_mirrored {nan : Bytes → binary32.NaN} {v w : UInt32} (h : Hop κ κ' nan v w) :
    w = mirrored nan v := by
  obtain ⟨hkey, hsends, hcalls, hreceives⟩ := h
  rw [received_of_sent nan hkey hsends hcalls] at hreceives
  exact (Option.some.inj hreceives).symm

theorem mirrored_mirrored (nan : Bytes → binary32.NaN) (v : UInt32) :
    mirrored nan (mirrored nan v) = mirrored nan v := by
  have hagain := received_snprintf nan (mirrored nan v)
  rw [snprintf_mirrored, received_snprintf] at hagain
  exact (Option.some.inj hagain).symm

/-- **Relays agree**: where each sensor sends on what another has received, all show what the first
of them has received. -/
theorem relays_agree (nan : Bytes → binary32.NaN) {v w : UInt32} {states : List UInt32}
    (hchain : List.IsChain (Hop κ κ' nan) (v :: w :: states)) :
    Mirrors v w ∧ ∀ u ∈ states, u = w := by
  rw [List.isChain_cons_cons] at hchain
  obtain ⟨hfirst, hchain⟩ := hchain
  have hw := hfirst.eq_mirrored
  refine ⟨hw ▸ mirrors_mirrored nan v, ?_⟩
  have hstable : mirrored nan w = w := by rw [hw, mirrored_mirrored]
  clear hfirst hw
  induction states with
  | nil => exact List.forall_mem_nil _
  | cons u states ih =>
    rw [List.isChain_cons_cons] at hchain
    obtain ⟨hhop, hchain⟩ := hchain
    obtain rfl : u = w := hhop.eq_mirrored.trans hstable
    exact List.forall_mem_cons.mpr ⟨rfl, ih hchain⟩

/-- `relays_agree` for two nodes with one key that pass a state on between them. -/
theorem relays_agree_pair :
    let nan : Bytes → binary32.NaN := fun _ => ⟨0x7FC00000, by decide, by decide⟩
    let w := mirrored nan 0x40490FDB
    Mirrors 0x40490FDB w ∧ ∀ u ∈ [mirrored nan w, mirrored nan (mirrored nan w)], u = w := by
  intro nan w
  let p : MulticastPubSub Nat := { socket := true, encryptionEnabled := true }
  let r : MulticastPubSub Nat := { encryptionEnabled := true }
  have hok : SubscriptionsOk r.scope (r.subscribe [116] 5 true).subscriptions :=
    (step_wellFormed r (.subscribe [116] 5 true)
      (fresh_wellFormed ⟨rfl, rfl, rfl, 0, rfl⟩)).subscriptions
  have hhop (v : UInt32) : Hop Nat Nat nan v (mirrored nan v) := by
    have hkey : (r.subscribe [116] 5 true).encryptionKeyBytes = p.encryptionKeyBytes := rfl
    have hcall := @called_of_subscribed Nat Nat p (r.subscribe [116] 5 true) [116] 5
      { clock := some 100 } none v hok (subscribed_subscribe r [116] 5 true)
      (fun _ => ⟨rfl, hkey⟩) (fun _ => rfl) (fun _ _ _ _ => rfl)
    exact .arrives (fun _ => hkey) (sent_mem_stateChanged rfl [116] false { clock := some 100 } v)
      hcall (received_snprintf nan v)
  exact relays_agree nan (.cons_cons (hhop _) (.cons_cons (hhop _)
    (.cons_cons (hhop _) (.singleton _))))

end Mpubsub.Theorems
