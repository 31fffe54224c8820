import Machina.Runs
import Machina.VirtNet

/-!
# Feature negotiation of the network device

Transmission acts on the features handed over with FEATURES_OK, reception on those the
transport holds. Both are the same, offered and fixed as long as the driver keeps to the
order of negotiation.
-/

namespace MachinaVirtFeatures

open MachinaRuns MachinaVirtQueue MachinaVirtMmio MachinaVirtNet

abbrev State := VirtioMmioState VirtioNet

def Step (s : State) (e : Event) (t : State) : Prop := step s e = .ok t

def Within (a b : BitVec 64) : Prop := a &&& ~~~b = 0

/-- What negotiation is about: the status register, the features in the transport, those the device offers and
those it was handed. -/
structure View where
  status : BitVec 32
  driver : BitVec 64
  offers : BitVec 64
  acked : BitVec 64
  deriving DecidableEq, Repr

def view (s : State) : View := ⟨s.status, s.driverFeatures, s.device.features, s.device.ackedFeatures⟩

def FeaturesOk (s : State) : Prop := s.status &&& 0x8 ≠ 0

def DriverOk (s : State) : Prop := s.status &&& 0x4 ≠ 0

instance (s : State) : Decidable (DriverOk s) := inferInstanceAs (Decidable (_ ≠ _))

def offered (s : State) : BitVec 64 := virtioNetOps.features s.device

def txFeatures (s : State) : BitVec 64 := s.device.ackedFeatures

def rxFeatures (s : State) : BitVec 64 := s.negotiatedFeatures

def IsReset : Event → Prop
  | .write offset size val => offset = 0x070 ∧ size = 4 ∧ val.setWidth 32 = 0#32
  | .packet _ => False

/-- What is to hold in a state, and in the states reached from it by `R` without a reset. -/
structure Honoured (R : State → Event → State → Prop) (s : State) : Prop where
  offered : DriverOk s → Within (txFeatures s) (offered s) ∧ Within (rxFeatures s) (offered s)
  fixed : FeaturesOk s → ∀ es t, Run R s es t → (∀ e ∈ es, ¬IsReset e) →
    txFeatures t = txFeatures s ∧ rxFeatures t = rxFeatures s
  sizes : DriverOk s → ∀ es t, Run R s es t → (∀ e ∈ es, ¬IsReset e) → rxHdrSize t = t.device.hdrSize

/-- In every state reached by `R`. -/
def FeaturesHonoured (R : State → Event → State → Prop) (s : State) : Prop :=
  ∀ es t, Run R s es t → Honoured R t

/-- The driver writes no other features once FEATURES_OK is set, sets FEATURES_OK only with offered features, keeps
it until a reset, and sets DRIVER_OK only together with it. -/
def Conforming (s : State) : Event → Prop
  | .write offset size val =>
    size = 4 →
      (offset = 0x020 → FeaturesOk s → s.windowWritten (val.setWidth 32) = s.driverFeatures) ∧
      (offset = 0x070 → val.setWidth 32 ≠ 0#32 →
        (val.setWidth 32 &&& 0x8#32 ≠ 0 → ¬FeaturesOk s → Within s.driverFeatures (offered s)) ∧
        (FeaturesOk s → val.setWidth 32 &&& 0x8#32 ≠ 0) ∧
        (val.setWidth 32 &&& 0x4#32 ≠ 0 → val.setWidth 32 &&& 0x8#32 ≠ 0))
  | .packet _ => True

section Frame

theorem sendOne_features {s t : TxLoop} {hdrSize : Nat} (h : s.sendOne hdrSize = .ok t) :
    t.net.features = s.net.features ∧ t.net.ackedFeatures = s.net.ackedFeatures := by
  obtain ⟨descHead, -, h⟩ := bind_ok h
  obtain ⟨chain, -, h⟩ := bind_ok h
  obtain ⟨ram, -, h⟩ := bind_ok h
  cases h
  split <;> exact ⟨rfl, rfl⟩

theorem send_features {s t : TxLoop} {hdrSize n : Nat} (h : s.send hdrSize n = .ok t) :
    t.net.features = s.net.features ∧ t.net.ackedFeatures = s.net.ackedFeatures := by
  induction n generalizing t with
  | zero =>
    cases h
    exact ⟨rfl, rfl⟩
  | succ n ih =>
    obtain ⟨u, hu, ht⟩ := bind_ok h
    have hlast := sendOne_features ht
    have hfirst := ih hu
    exact ⟨hlast.1.trans hfirst.1, hlast.2.trans hfirst.2⟩

theorem txProcess_features {net net' : VirtioNet} {queue queue' : VirtQueue} {ram ram' : Ram} {n : Nat}
    (h : net.txProcess queue ram = .ok (queue', ram', net', n)) :
    net'.features = net.features ∧ net'.ackedFeatures = net.ackedFeatures := by
  obtain ⟨availIdx, -, h⟩ := bind_ok h
  split at h
  · cases h
    exact ⟨rfl, rfl⟩
  obtain ⟨usedIdx, -, h⟩ := bind_ok h
  obtain ⟨s, hs, h⟩ := bind_ok h
  obtain ⟨ram, -, h⟩ := bind_ok h
  cases h
  exact send_features (s := ⟨queue, _, net, _⟩) hs

theorem processNotify_view {s t : State} (h : s.processNotify virtioNetOps = .ok t) : view t = view s := by
  rw [VirtioMmioState.processNotify] at h
  split at h
  · cases h
    rfl
  split at h
  · cases h
    rfl
  split at h
  · cases h
    rfl
  obtain ⟨⟨queue, ram, device, n⟩, hn, h⟩ := bind_ok h
  have hdevice : device.features = s.device.features ∧ device.ackedFeatures = s.device.ackedFeatures := by
    change (if _ then _ else _) = _ at hn
    split at hn
    · exact txProcess_features hn
    · cases hn
      exact ⟨rfl, rfl⟩
  cases h
  split <;> simp [view, hdevice]

theorem rxPacket_view {s t : State} {bytes : List (BitVec 8)} (h : rxPacket s bytes = .ok t) : view t = view s := by
  rw [rxPacket] at h
  split at h
  · cases h
    rfl
  split at h
  · cases h
    rfl
  split at h
  · cases h
    rfl
  obtain ⟨⟨queue, ram, used⟩, -, h⟩ := bind_ok h
  cases h
  rw [VirtioMmioState.injectRx]
  split <;> rfl

/-- A write reaches the features only through two registers. -/
theorem write_cases {s t : State} {offset size : Nat} {val : BitVec 64}
    (h : s.write virtioNetOps offset size val = .ok t) :
    size = 4 ∧ offset = 0x020 ∧ t = { s with driverFeatures := s.windowWritten (val.setWidth 32) } ∨
      size = 4 ∧ offset = 0x070 ∧ t = s.writeStatus virtioNetOps (val.setWidth 32) ∨ view t = view s := by
  rw [VirtioMmioState.write] at h
  split at h
  · cases h
    exact .inr (.inr rfl)
  rename_i hsize
  split at h
  case h_2 =>
    cases h
    exact .inl ⟨by omega, rfl, rfl⟩
  case h_7 =>
    obtain ⟨u, hu, h⟩ := bind_ok h
    cases h
    have hview := processNotify_view hu
    exact .inr (.inr hview)
  case h_9 =>
    cases h
    exact .inr (.inl ⟨by omega, rfl, rfl⟩)
  case h_18 =>
    split at h <;> cases h <;> exact .inr (.inr rfl)
  all_goals
    cases h
    exact .inr (.inr rfl)

end Frame

section Negotiation

/-- The moves of negotiation in its order; the flag marks the reset. -/
inductive Move : Bool → View → View → Prop where
  | keep (v : View) : Move false v v
  | choose (v : View) (features : BitVec 64) (hnew : v.status &&& 0x8 = 0) : Move false v { v with driver := features }
  | progress (v : View) (status : BitVec 32) (hset : v.status &&& 0x8 ≠ 0) (hkeep : status &&& 0x8 ≠ 0) :
    Move false v { v with status }
  | prepare (v : View) (status : BitVec 32) (hnew : v.status &&& 0x8 = 0) (hfeatures : status &&& 0x8 = 0)
    (hdriver : status &&& 0x4 = 0) : Move false v { v with status }
  | accept (v : View) (status : BitVec 32) (hset : status &&& 0x8 ≠ 0) (hwithin : Within v.driver v.offers) :
    Move false v { v with status, acked := v.driver }
  | reset (v : View) : Move true v ⟨0, 0, v.offers, 0⟩

/-- The driver that conforms makes only these moves. -/
theorem conforming_move {s t : State} {e : Event} (hok : Conforming s e) (h : Step s e t) :
    ∃ r, Move r (view s) (view t) ∧ (r = true → IsReset e) := by
  cases e with
  | packet bytes => exact ⟨false, rxPacket_view h ▸ Move.keep _, nofun⟩
  | write offset size val =>
    rcases write_cases h with ⟨rfl, rfl, rfl⟩ | ⟨rfl, rfl, rfl⟩ | hsame
    · refine ⟨false, ?_, nofun⟩
      by_cases hnew : s.status &&& 0x8 = 0
      · exact Move.choose (view s) _ hnew
      have hkeep := (hok rfl).1 rfl hnew
      rw [hkeep]
      exact Move.keep _
    · rw [VirtioMmioState.writeStatus]
      split
      · rename_i hzero
        exact ⟨true, Move.reset (view s), fun _ => ⟨rfl, rfl, hzero⟩⟩
      rename_i hzero
      obtain ⟨hset, hkeep, horder⟩ := (hok rfl).2 rfl hzero
      refine ⟨false, ?_, nofun⟩
      split
      · rename_i hfirst
        exact Move.accept (view s) _ hfirst.1 (hset hfirst.1 (not_not_intro hfirst.2))
      rename_i hfirst
      by_cases hnow : s.status &&& 0x8 = 0
      · have hunset : val.setWidth 32 &&& 0x8#32 = 0 := by_contra fun hv => hfirst ⟨hv, hnow⟩
        exact Move.prepare (view s) _ hnow hunset (by_contra fun hv => horder hv hunset)
      · exact Move.progress (view s) _ hnow (hkeep hnow)
    · exact ⟨false, hsame ▸ Move.keep _, nofun⟩

/-- Once FEATURES_OK is set both directions have the same, offered features; DRIVER_OK comes with it. -/
structure Agreed (v : View) : Prop where
  same : v.status &&& 0x8 ≠ 0 → v.acked = v.driver ∧ Within v.driver v.offers
  ordered : v.status &&& 0x4 ≠ 0 → v.status &&& 0x8 ≠ 0

theorem agreed_of_fresh {v : View} (h : v.status = 0) : Agreed v := by
  constructor <;> simp [h]

theorem Move.agreed {r : Bool} {v w : View} (h : Move r v w) (hv : Agreed v) : Agreed w := by
  cases h with
  | keep => exact hv
  | choose _ features hnew => exact ⟨fun hset => absurd hnew hset, hv.ordered⟩
  | progress _ status hset hkeep => exact ⟨fun _ => hv.same hset, fun _ => hkeep⟩
  | prepare _ status _ hfeatures hdriver => exact ⟨fun h => absurd hfeatures h, fun h => absurd hdriver h⟩
  | accept _ status hset hwithin => exact ⟨fun _ => ⟨rfl, hwithin⟩, fun _ => hset⟩
  | reset => exact agreed_of_fresh rfl

/-- Without a reset, FEATURES_OK and the features of both directions stay. -/
theorem Move.fixed {v w : View} (h : Move false v w) (hv : Agreed v) (hset : v.status &&& 0x8 ≠ 0) :
    w.status &&& 0x8 ≠ 0 ∧ w.acked = v.acked ∧ w.driver = v.driver := by
  cases h with
  | keep => exact ⟨hset, rfl, rfl⟩
  | choose _ features hnew => exact absurd hnew hset
  | progress _ status _ hkeep => exact ⟨hkeep, rfl, rfl⟩
  | prepare _ status hnew => exact absurd hnew hset
  | accept _ status hkeep hwithin => exact ⟨hkeep, (hv.same hset).1.symm, rfl⟩

abbrev Conforms := guarded Conforming Step

theorem agreed_run {s t : State} {es : List Event} (hrun : Run Conforms s es t) (hs : Agreed (view s)) :
    Agreed (view t) :=
  Run.invariant (I := fun s => Agreed (view s)) (fun _ _ _ h hagreed =>
    let ⟨_, hmove, _⟩ := conforming_move h.1 h.2
    hmove.agreed hagreed) hrun hs

theorem fixed_run {s t : State} {es : List Event} (hrun : Run Conforms s es t) (hreset : ∀ e ∈ es, ¬IsReset e)
    (hs : Agreed (view s)) (hset : FeaturesOk s) :
    FeaturesOk t ∧ txFeatures t = txFeatures s ∧ rxFeatures t = rxFeatures s := by
  induction hrun with
  | nil => exact ⟨hset, rfl, rfl⟩
  | cons h _ ih =>
    obtain ⟨r, hmove, hr⟩ := conforming_move h.1 h.2
    cases r with
    | true => exact absurd (hr rfl) (hreset _ (List.mem_cons_self ..))
    | false =>
      obtain ⟨hkeep, htx, hrx⟩ := hmove.fixed hs hset
      obtain ⟨hlast, htx', hrx'⟩ := ih (fun e he => hreset e (List.mem_cons_of_mem _ he)) (hmove.agreed hs) hkeep
      exact ⟨hlast, htx'.trans htx, hrx'.trans hrx⟩

/-- As long as the driver conforms, the features are honoured in every state. -/
theorem conforming_features_honoured (net : VirtioNet) (ram : Ram) :
    FeaturesHonoured Conforms (VirtioMmioState.new net 2 ram) := by
  intro es s hrun
  have hagreed : Agreed (view s) := agreed_run hrun (agreed_of_fresh rfl)
  refine ⟨fun hdriver => ?_, fun hset es' t hrun' hreset => ?_, fun hdriver es' t hrun' hreset => ?_⟩
  · obtain ⟨hsame, hwithin⟩ := hagreed.same (hagreed.ordered hdriver)
    exact ⟨(congrArg (Within · _) hsame).mpr hwithin, hwithin⟩
  · exact (fixed_run hrun' hreset hagreed hset).2
  · have hset := (fixed_run hrun' hreset hagreed (hagreed.ordered hdriver)).1
    have hsame := ((agreed_run hrun' hagreed).same hset).1
    exact congrArg hdrSizeOf hsame.symm

def noRam : Ram := ⟨0, 0, fun _ => 0⟩

/-- The device when the driver has set all status bits and chosen no features. -/
def started : State := (VirtioMmioState.new VirtioNet.new 2 noRam).writeStatus virtioNetOps 0xF

/-- Features written after that. -/
def lateFeatures : State := { started with driverFeatures := started.windowWritten 0x8000 }

/-- Features written late reach reception at once, and transmission never. -/
theorem late_features_split_directions :
    ¬FeaturesHonoured Step (VirtioMmioState.new VirtioNet.new 2 noRam) ∧ DriverOk started ∧
      Step started (.write 0x020 4 0x8000) lateFeatures ∧ rxHdrSize lateFeatures = 12 ∧
      lateFeatures.device.hdrSize = 10 := by
  have hstart : Step (VirtioMmioState.new VirtioNet.new 2 noRam) (.write 0x070 4 0xF) started := rfl
  have hlate : Step started (.write 0x020 4 0x8000) lateFeatures := rfl
  have hdriver : DriverOk started := by decide
  refine ⟨fun h => ?_, hdriver, hlate, by decide, by decide⟩
  have hsizes := (h _ _ (.cons hstart (.nil _))).sizes hdriver _ _ (.cons hlate (.nil _)) fun e he => by
    obtain rfl := List.mem_singleton.mp he
    exact fun hreset => absurd hreset.1 (by decide)
  exact absurd hsizes (by decide)

end Negotiation

end MachinaVirtFeatures
