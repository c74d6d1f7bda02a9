import Libft.Networking.Http2Streams
import Libft.Lib.Run

/-!
# The windows of HTTP/2 streams

The list of identifiers is exact as long as no open stream is closed, since a closed stream stays in the list: from then on a change of
the initial window fails at it (`identifiers_exact`). What is reserved on a stream stays within the initial window and the increments as
long as no window is cut off at zero when the initial window is lowered: the debt would be forgotten (`reserved_within`).
-/

namespace Libft.Networking.Http2

open Function Option List Nat StreamManager

/-! ## The list of identifiers -/

/-- The identifiers are those of the open streams, each once. -/
def Exact (m : StreamManager) : Prop := m.identifiers.Nodup ∧ ∀ id, id ∈ m.identifiers ↔ (m.streams id).isSome = true

/-- Where every identifier of the list is open, the loop changes each of them. -/
theorem updateStreams_eq (change : StreamState → StreamState) {streams : ℕ → Option StreamState} {ids : List ℕ} (hi : ids.Nodup)
    (hop : ∀ id ∈ ids, (streams id).isSome = true) :
    updateStreams change streams ids =
      (fun id => if id ∈ ids then (streams id).map change else streams id, .success) := by
  induction ids generalizing streams with
  | nil => simp [updateStreams]
  | cons id ids ih =>
    obtain ⟨hid, hr⟩ := nodup_cons.mp hi
    obtain ⟨s, hs⟩ := isSome_iff_exists.mp (hop id mem_cons_self)
    have ho : ∀ j ∈ ids, (update streams id (some (change s)) j).isSome = true := by
      intro j hj
      have hne : j ≠ id := by
        rintro rfl
        exact hid hj
      rw [update_of_ne hne]
      exact hop j (mem_cons_of_mem id hj)
    rw [updateStreams, hs]
    dsimp only
    rw [ih hr ho]
    congr 1
    funext j
    by_cases hj : j = id
    · simp [hj, hid, hs]
    · simp [hj]

namespace Exact

variable {m : StreamManager} (h : Exact m) {new : ℕ} {m' : StreamManager}

include h

theorem updateStreams (change : StreamState → StreamState) :
    updateStreams change m.streams m.identifiers = (fun id => (m.streams id).map change, .success) := by
  rw [updateStreams_eq change h.1 fun id hid => (h.2 id).mp hid]
  congr 1
  funext id
  by_cases hid : id ∈ m.identifiers
  · rw [if_pos hid]
  · rw [if_neg hid, not_isSome_iff_eq_none.mp (fun hs => hid ((h.2 id).mpr hs)), map_none]

theorem updateRemote (hn : new ≤ windowMax) : m.updateRemoteInitialWindow new =
    ({ m with
        initialRemoteWindow := new
        streams := fun id => (m.streams id).map fun s => { s with remoteWindow := shifted s.remoteWindow m.initialRemoteWindow new } },
      .success) := by
  rw [updateRemoteInitialWindow, if_neg (not_lt.mpr hn), h.updateStreams]

theorem updateLocal (hn : new ≤ windowMax) : m.updateLocalInitialWindow new =
    ({ m with
        initialLocalWindow := new
        streams := fun id => (m.streams id).map fun s => { s with localWindow := shifted s.localWindow m.initialLocalWindow new } },
      .success) := by
  rw [updateLocalInitialWindow, if_neg (not_lt.mpr hn), h.updateStreams]

/-- Streams that are changed stay open, and no others are. -/
theorem map (change : StreamState → StreamState) (hi : m'.identifiers = m.identifiers)
    (hs : ∀ id, m'.streams id = (m.streams id).map change) : Exact m' :=
  ⟨hi ▸ h.1, fun id => by rw [hi, hs, isSome_map, h.2]⟩

/-- A stream that is open has another state. -/
theorem update {id : ℕ} {s : StreamState} (hi : m'.identifiers = m.identifiers)
    (hid : (m.streams id).isSome = true) (hs : m'.streams = update m.streams id (some s)) : Exact m' := by
  refine ⟨hi ▸ h.1, fun j => ?_⟩
  rw [hi, hs, h.2]
  by_cases hj : j = id
  · simp [hj, hid]
  · simp [hj]

theorem openStream (id : ℕ) : Exact (m.openStream id true true).1 := by
  unfold StreamManager.openStream
  split
  · exact h
  · next hid =>
    have hn : id ∉ m.identifiers := fun hm => hid ((h.2 id).mp hm)
    refine ⟨nodup_append.mpr ⟨h.1, by simp, fun j hj k hk => ?_⟩, fun j => ?_⟩
    · rintro rfl
      exact hn (mem_singleton.mp hk ▸ hj)
    by_cases hj : j = id
    · simp [hj]
    · simp [hj, h.2]

theorem updateRemote_fst (new : ℕ) : Exact (m.updateRemoteInitialWindow new).1 := by
  unfold updateRemoteInitialWindow
  split
  · exact h
  · exact h.map _ rfl fun id => by rw [h.updateStreams]

theorem updateLocal_fst (new : ℕ) : Exact (m.updateLocalInitialWindow new).1 := by
  unfold updateLocalInitialWindow
  split
  · exact h
  · exact h.map _ rfl fun id => by rw [h.updateStreams]

end Exact

/-! ## Settings -/

/-- A value that a setting may have. -/
def ValidSetting : ℕ × ℕ → Prop
  | (identifier, value) =>
    (identifier = 2 → value ≤ 1) ∧ (identifier = 4 → value ≤ windowMax) ∧ (identifier = 5 → 16384 ≤ value ∧ value ≤ 16777215)

/-- A well-formed SETTINGS frame with values that settings may have. -/
def Frame.Valid (frame : Frame) : Prop :=
  frame.type = 4 ∧ (frame.flags &&& 1 ≠ 0 → frame.payload = []) ∧ frame.payload.length % 6 = 0 ∧
    ∀ setting ∈ settingsOf frame.payload, ValidSetting setting

instance : DecidablePred ValidSetting := fun (_, _) => inferInstanceAs (Decidable (_ ∧ _ ∧ _))

instance (frame : Frame) : Decidable frame.Valid := inferInstanceAs (Decidable (_ ∧ _ ∧ _ ∧ _))

namespace Settings

variable {s : Settings}

section

variable (h : Exact s.manager)

include h

theorem exact_updateRemote (new : ℕ) : Exact (s.updateRemoteInitialWindow new).1.manager := by
  have he := h.updateRemote_fst new
  unfold updateRemoteInitialWindow
  dsimp only
  split_ifs
  · exact h
  · exact he
  · exact he

theorem exact_updateLocal (new : ℕ) : Exact (s.updateLocalInitialWindow new).1.manager := by
  have he := h.updateLocal_fst new
  unfold updateLocalInitialWindow
  dsimp only
  split_ifs
  · exact h
  · exact he
  · exact he

theorem exact_applySingleSetting (ident v : ℕ) : Exact (s.applySingleSetting ident v).1.manager := by
  have he := exact_updateRemote h v
  unfold applySingleSetting
  split_ifs <;> first | exact h | exact he

theorem applySingleSetting_valid {ident v : ℕ} (hvl : ValidSetting (ident, v)) :
    (s.applySingleSetting ident v).2 = true := by
  obtain ⟨hp, hw, hs⟩ := hvl
  unfold applySingleSetting
  split_ifs with _ h2 hv _ h4 h5 hv
  · rfl
  · exact absurd (hp h2) (not_le.mpr hv)
  · rfl
  · rfl
  · rw [updateRemoteInitialWindow, if_neg (not_lt.mpr (hw h4)), h.updateRemote (hw h4)]
    rfl
  · have hrg := hs h5
    omega
  · rfl
  · rfl
  · rfl

theorem exact_applySettings (settings : List (ℕ × ℕ)) : Exact (s.applySettings settings).1.manager := by
  induction settings generalizing s with
  | nil => exact h
  | cons st tl ih =>
    have he := exact_applySingleSetting h st.1 st.2
    rw [applySettings]
    split
    · exact ih he
    · exact he

theorem applySettings_valid {settings : List (ℕ × ℕ)} (hv : ∀ setting ∈ settings, ValidSetting setting) :
    (s.applySettings settings).2 = true := by
  induction settings generalizing s with
  | nil => rfl
  | cons setting tl ih =>
    rw [applySettings, if_pos (applySingleSetting_valid h (hv setting mem_cons_self))]
    exact ih (exact_applySingleSetting h _ _) (forall_mem_cons.mp hv).2

theorem exact_applyRemoteSettings (frame : Frame) : Exact (s.applyRemoteSettings frame).1.manager := by
  unfold applyRemoteSettings
  split_ifs
  · exact h
  · exact h
  · exact h
  · exact exact_applySettings h _

theorem applyRemoteSettings_valid {frame : Frame} (hv : frame.Valid) : (s.applyRemoteSettings frame).2 = true := by
  obtain ⟨ht, ha, hl, hs⟩ := hv
  unfold applyRemoteSettings
  rw [if_neg (not_not_intro ht)]
  by_cases hf : frame.flags &&& 1 ≠ 0
  · rw [if_pos hf, ha hf]
    rfl
  · rw [if_neg hf, if_neg (not_not_intro hl)]
    exact applySettings_valid h hs

end

end Settings

/-- A call that opens or closes a stream or applies settings. -/
inductive SettingsCall where
  | openStream (id : ℕ) (inserts pushes : Bool)
  | closeStream (id : ℕ)
  | applyRemoteSettings (frame : Frame)
  | updateRemoteInitialWindow (new : ℕ)
  | updateLocalInitialWindow (new : ℕ)

/-- The settings after a call, whatever it returns. -/
def Settings.step (s : Settings) : SettingsCall → Settings
  | .openStream id inserts pushes => { s with manager := (s.manager.openStream id inserts pushes).1 }
  | .closeStream id => { s with manager := (s.manager.closeStream id).1 }
  | .applyRemoteSettings frame => (s.applyRemoteSettings frame).1
  | .updateRemoteInitialWindow new => (s.updateRemoteInitialWindow new).1
  | .updateLocalInitialWindow new => (s.updateLocalInitialWindow new).1

/-- There is memory when a stream is opened, and no stream that is open is closed. -/
def StaysOpen (s : Settings) : SettingsCall → Prop
  | .openStream _ inserts pushes => inserts = true ∧ pushes = true
  | .closeStream id => s.manager.streams id = none
  | _ => True

theorem Settings.exact_step {s : Settings} {call : SettingsCall} (h : Exact s.manager) (hc : StaysOpen s call) :
    Exact (s.step call).manager := by
  cases call with
  | openStream id i p =>
    obtain ⟨rfl, rfl⟩ := hc
    exact h.openStream id
  | closeStream id =>
    have hno : s.manager.streams id = none := hc
    simpa [Settings.step, closeStream, hno] using h
  | applyRemoteSettings frame => exact exact_applyRemoteSettings h frame
  | updateRemoteInitialWindow new => exact exact_updateRemote h new
  | updateLocalInitialWindow new => exact exact_updateLocal h new

/-- A window that stays between zero and the maximum is moved by the difference. -/
theorem shifted_eq {win prev new : ℕ} (hl : prev ≤ win + new) (hh : win + new ≤ prev + windowMax) :
    (shifted win prev new : ℤ) = win + new - prev := by
  unfold shifted
  split_ifs <;> omega

/-- In every state that is reached while no open stream is closed, the list has the open streams, each once; every valid SETTINGS frame
is accepted; and a new initial window moves every window by the difference, if that stays between zero and the maximum. -/
theorem identifiers_exact (calls : List SettingsCall) (h : Meets Settings.step StaysOpen .initial calls) :
    let s := calls.foldl Settings.step .initial
    Exact s.manager ∧ (∀ frame : Frame, frame.Valid → (s.applyRemoteSettings frame).2 = true) ∧
      ∀ new ≤ windowMax, ∀ id state, s.manager.streams id = some state →
        (∃ s', (s.manager.updateRemoteInitialWindow new).1.streams id = some s' ∧
          (s.manager.initialRemoteWindow ≤ state.remoteWindow + new →
            state.remoteWindow + new ≤ s.manager.initialRemoteWindow + windowMax →
            (s'.remoteWindow : ℤ) = state.remoteWindow + new - s.manager.initialRemoteWindow)) ∧
        ∃ s', (s.manager.updateLocalInitialWindow new).1.streams id = some s' ∧
          (s.manager.initialLocalWindow ≤ state.localWindow + new → state.localWindow + new ≤ s.manager.initialLocalWindow + windowMax →
            (s'.localWindow : ℤ) = state.localWindow + new - s.manager.initialLocalWindow) := by
  intro s
  have hr : Exact Settings.initial.manager := ⟨nodup_nil, by simp [Settings.initial, initial]⟩
  have he : Exact s.manager := Meets.invariant (I := fun s => Exact s.manager) (fun _ _ hs hc => Settings.exact_step hs hc) hr h
  refine ⟨he, fun frame hv => Settings.applyRemoteSettings_valid he hv, fun new hn id state hst => ⟨?_, ?_⟩⟩
  · rw [he.updateRemote hn]
    dsimp only
    rw [hst]
    exact ⟨_, rfl, shifted_eq⟩
  · rw [he.updateLocal hn]
    dsimp only
    rw [hst]
    exact ⟨_, rfl, shifted_eq⟩

/-- Two streams are opened, and a SETTINGS frame has raised the initial window. Another frame is accepted, and a lower initial window
lowers the window of a stream. -/
theorem identifiers_exact_two :
    let s := [SettingsCall.openStream 1 true true, .openStream 3 true true, .applyRemoteSettings ⟨4, 0, [0, 4, 0, 1, 0, 0]⟩].foldl
      Settings.step .initial
    (s.manager.identifiers = [1, 3] ∧ Exact s.manager) ∧ (s.applyRemoteSettings ⟨4, 0, [0, 4, 0, 0, 0, 9]⟩).2 = true ∧
      ∃ s', (s.manager.updateRemoteInitialWindow 60000).1.streams 3 = some s' ∧ (s'.remoteWindow : ℤ) = 65536 + 60000 - 65536 := by
  intro s
  obtain ⟨he, hf, hw⟩ := identifiers_exact
    [.openStream 1 true true, .openStream 3 true true, .applyRemoteSettings ⟨4, 0, [0, 4, 0, 1, 0, 0]⟩]
    ⟨⟨rfl, rfl⟩, ⟨rfl, rfl⟩, trivial, trivial⟩
  obtain ⟨⟨s', hs, hm⟩, -⟩ := hw 60000 (by decide) 3 ⟨65536, 65535⟩ (by decide)
  exact ⟨⟨by decide, he⟩, hf _ (by decide), s', hs, hm (by decide) (by decide)⟩

/-- A stream has been opened and closed. It is still in the list, and a valid SETTINGS frame with a new initial window is refused. -/
theorem identifiers_after_close :
    let s := [SettingsCall.openStream 1 true true, .closeStream 1].foldl Settings.step .initial
    s.manager.streams 1 = none ∧ s.manager.identifiers = [1] ∧ (s.applyRemoteSettings ⟨4, 0, [0, 4, 0, 1, 0, 0]⟩).2 = false := by
  decide

/-! ## What is reserved -/

/-- A stream manager, and what has been reserved and granted so far. -/
structure Account where
  manager : StreamManager
  reserved : ℕ → ℕ
  granted : ℕ → ℕ
  totalReserved : ℕ
  connectionGranted : ℕ

/-- A call that opens a stream, reserves a part of its window, or changes windows. -/
inductive WindowCall where
  | openStream (id : ℕ) (inserts pushes : Bool)
  | reserveSendWindow (id length : ℕ)
  | increaseRemoteWindow (id increment : ℕ)
  | updateConnectionRemoteWindow (increment : ℕ)
  | updateRemoteInitialWindow (new : ℕ)

namespace Account

def initial : Account := ⟨.initial, fun _ => 0, fun _ => 0, 0, 0⟩

/-- A call, with what it has reserved or granted if it succeeds. -/
def step (a : Account) : WindowCall → Account
  | .openStream id inserts pushes => { a with manager := (a.manager.openStream id inserts pushes).1 }
  | .reserveSendWindow id length =>
    let out := a.manager.reserveSendWindow id length
    if out.2 = .success then
      { a with
        manager := out.1
        reserved := Function.update a.reserved id (a.reserved id + length)
        totalReserved := a.totalReserved + length }
    else { a with manager := out.1 }
  | .increaseRemoteWindow id increment =>
    let out := a.manager.increaseRemoteWindow id increment
    if out.2 = .success then { a with manager := out.1, granted := Function.update a.granted id (a.granted id + increment) }
    else { a with manager := out.1 }
  | .updateConnectionRemoteWindow increment =>
    let out := a.manager.updateConnectionRemoteWindow increment
    if out.2 = .success then { a with manager := out.1, connectionGranted := a.connectionGranted + increment }
    else { a with manager := out.1 }
  | .updateRemoteInitialWindow new => { a with manager := (a.manager.updateRemoteInitialWindow new).1 }

/-- What is reserved and what is left make up the initial window and the increments. -/
structure Balanced (a : Account) : Prop where
  exact : Exact a.manager
  stream : ∀ id s, a.manager.streams id = some s → s.remoteWindow + a.reserved id ≤ a.manager.initialRemoteWindow + a.granted id
  idle : ∀ id, a.manager.streams id = none → a.reserved id = 0 ∧ a.granted id = 0

end Account

/-- There is memory when a stream is opened, and a lower initial window takes from no window more than it has. -/
def TakesNoMore (a : Account) : WindowCall → Prop
  | .openStream _ inserts pushes => inserts = true ∧ pushes = true
  | .updateRemoteInitialWindow new => ∀ id s, a.manager.streams id = some s → a.manager.initialRemoteWindow ≤ s.remoteWindow + new
  | _ => True

namespace StreamManager

/-- A reservation is refused and changes nothing, or takes the length from both windows. -/
theorem reserveSendWindow_cases (m : StreamManager) (id length : ℕ) :
    ((m.reserveSendWindow id length).2 ≠ .success ∧ (m.reserveSendWindow id length).1 = m) ∨
      ∃ s, m.streams id = some s ∧ length ≤ s.remoteWindow ∧ length ≤ m.connectionRemoteWindow ∧
        m.reserveSendWindow id length = ({ m with
          streams := update m.streams id (some { s with remoteWindow := s.remoteWindow - length })
          connectionRemoteWindow := m.connectionRemoteWindow - length }, .success) := by
  unfold reserveSendWindow
  split
  · exact .inl ⟨nofun, rfl⟩
  · rename_i s hs
    split_ifs with hc hst
    · exact .inl ⟨nofun, rfl⟩
    · exact .inl ⟨nofun, rfl⟩
    · exact .inr ⟨s, hs, not_lt.mp hst, not_lt.mp hc, by simp [hc]⟩

/-- An increment is refused and changes nothing, or is added to the window of the stream. -/
theorem increaseRemoteWindow_cases (m : StreamManager) (id inc : ℕ) :
    ((m.increaseRemoteWindow id inc).2 ≠ .success ∧ (m.increaseRemoteWindow id inc).1 = m) ∨
      ∃ s, m.streams id = some s ∧ m.increaseRemoteWindow id inc =
        ({ m with streams := update m.streams id (some { s with remoteWindow := s.remoteWindow + inc }) }, .success) := by
  unfold increaseRemoteWindow
  split
  · exact .inl ⟨nofun, rfl⟩
  · split
    · exact .inl ⟨nofun, rfl⟩
    · rename_i s hs
      split
      · exact .inl ⟨nofun, rfl⟩
      · exact .inr ⟨s, hs, rfl⟩

theorem updateConnectionRemoteWindow_cases (m : StreamManager) (inc : ℕ) :
    ((m.updateConnectionRemoteWindow inc).2 ≠ .success ∧ (m.updateConnectionRemoteWindow inc).1 = m) ∨
      m.updateConnectionRemoteWindow inc =
        ({ m with connectionRemoteWindow := m.connectionRemoteWindow + inc }, .success) := by
  unfold updateConnectionRemoteWindow
  split_ifs
  · exact .inl ⟨nofun, rfl⟩
  · exact .inl ⟨nofun, rfl⟩
  · exact .inr rfl

end StreamManager

namespace Account

variable {a a' : Account}

/-- A window that is not cut off at zero is moved by the difference at most. -/
theorem shifted_le {win prev new : ℕ} (h : prev ≤ win + new) : shifted win prev new + prev ≤ win + new := by
  unfold shifted
  split_ifs <;> omega

/-- One stream has another state, and its balance is kept. -/
theorem Balanced.change (h : a.Balanced) {id : ℕ} {t : StreamState} (he : Exact a'.manager)
    (hst : a'.manager.streams = update a.manager.streams id (some t))
    (ho : ∀ j, j ≠ id → a'.reserved j = a.reserved j ∧ a'.granted j = a.granted j)
    (hi : a'.manager.initialRemoteWindow = a.manager.initialRemoteWindow)
    (ht : t.remoteWindow + a'.reserved id ≤ a.manager.initialRemoteWindow + a'.granted id) : a'.Balanced := by
  refine ⟨he, fun j s hs => ?_, fun j hj => ?_⟩
  · by_cases hid : j = id
    · rw [hid, hst, update_self] at hs
      obtain rfl := some.inj hs
      rwa [hid, hi]
    · rw [hst, update_of_ne hid] at hs
      rw [(ho j hid).1, (ho j hid).2, hi]
      exact h.stream j s hs
  · by_cases hid : j = id
    · rw [hid, hst, update_self] at hj
      cases hj
    · rw [hst, update_of_ne hid] at hj
      rw [(ho j hid).1, (ho j hid).2]
      exact h.idle j hj

theorem Balanced.step (h : a.Balanced) {call : WindowCall} (hc : TakesNoMore a call) : (a.step call).Balanced := by
  cases call with
  | openStream id ins p =>
    obtain ⟨rfl, rfl⟩ := hc
    cases hid : a.manager.streams id with
    | some s => simpa [Account.step, openStream, hid] using h
    | none =>
      have hr : (a.manager.openStream id true true).1.streams = update a.manager.streams id
          (some ⟨a.manager.initialRemoteWindow, a.manager.initialLocalWindow⟩) := by simp [openStream, hid]
      rw [Account.step]
      refine h.change (h.exact.openStream id) hr (fun _ _ => ⟨rfl, rfl⟩) (by simp [openStream, hid]) ?_
      rw [(h.idle id hid).1]
      exact le_add_right _ _
  | reserveSendWindow id length =>
    rcases a.manager.reserveSendWindow_cases id length with ⟨hne, hsm⟩ | ⟨s, hs, hl, -, heq⟩
    · simpa only [Account.step, hne, hsm, if_false] using h
    · have hst := h.stream id s hs
      simp only [Account.step, heq, if_true]
      refine h.change (h.exact.update rfl (by rw [hs]; rfl) rfl) rfl (fun j hj => ⟨update_of_ne hj .., rfl⟩) rfl ?_
      simp only [update_self]
      omega
  | increaseRemoteWindow id i =>
    rcases a.manager.increaseRemoteWindow_cases id i with ⟨hne, hsm⟩ | ⟨s, hs, heq⟩
    · simpa only [Account.step, hne, hsm, if_false] using h
    · have hst := h.stream id s hs
      simp only [Account.step, heq, if_true]
      refine h.change (h.exact.update rfl (by rw [hs]; rfl) rfl) rfl (fun j hj => ⟨rfl, update_of_ne hj ..⟩) rfl ?_
      simp only [update_self]
      omega
  | updateConnectionRemoteWindow i =>
    rcases a.manager.updateConnectionRemoteWindow_cases i with ⟨hne, hsm⟩ | heq
    · simpa only [Account.step, hne, hsm, if_false] using h
    · simp only [Account.step, heq, if_true]
      exact { h with }
  | updateRemoteInitialWindow new =>
    by_cases hnew : new ≤ windowMax
    · rw [Account.step, h.exact.updateRemote hnew]
      refine ⟨h.exact.map _ rfl fun _ => rfl, fun id s hs => ?_, fun id hid => h.idle id (map_eq_none_iff.mp hid)⟩
      obtain ⟨t, ht, rfl⟩ := map_eq_some_iff.mp hs
      have hst := h.stream id t ht
      have hsh := shifted_le (hc id t ht)
      dsimp only
      omega
    · simpa only [Account.step, updateRemoteInitialWindow, Nat.lt_of_not_le hnew, if_true] using h

/-- The window of the connection and what has been reserved make up its first window and the increments. -/
theorem connection_step (h : a.manager.connectionRemoteWindow + a.totalReserved = 65535 + a.connectionGranted) (call : WindowCall) :
    (a.step call).manager.connectionRemoteWindow + (a.step call).totalReserved = 65535 + (a.step call).connectionGranted := by
  cases call with
  | openStream id ins p =>
    simp only [step, openStream]
    split_ifs <;> exact h
  | reserveSendWindow id length =>
    rcases a.manager.reserveSendWindow_cases id length with ⟨hne, hs⟩ | ⟨s, -, -, hl, heq⟩
    · simpa only [step, hne, hs, if_false] using h
    · simp only [step, heq, if_true]
      omega
  | increaseRemoteWindow id i =>
    rcases a.manager.increaseRemoteWindow_cases id i with ⟨hne, hs⟩ | ⟨s, -, heq⟩
    · simpa only [step, hne, hs, if_false] using h
    · simpa only [step, heq, if_true] using h
  | updateConnectionRemoteWindow i =>
    rcases a.manager.updateConnectionRemoteWindow_cases i with ⟨hne, hs⟩ | heq
    · simpa only [step, hne, hs, if_false] using h
    · simp only [step, heq, if_true]
      omega
  | updateRemoteInitialWindow new =>
    simp only [step, updateRemoteInitialWindow]
    split_ifs <;> exact h

end Account

/-- In every run in which a lower initial window takes from no window more than it has, what is reserved on an open stream is within the
initial window and the increments of the stream. In every run what is reserved at all is within 65535 and the increments of the
connection. -/
theorem reserved_within (calls : List WindowCall) :
    let a := calls.foldl Account.step .initial
    (Meets Account.step TakesNoMore .initial calls →
      ∀ id s, a.manager.streams id = some s → a.reserved id ≤ a.manager.initialRemoteWindow + a.granted id) ∧
      a.totalReserved ≤ 65535 + a.connectionGranted := by
  intro a
  constructor
  · intro h id s hs
    have hst : Account.initial.Balanced := ⟨⟨nodup_nil, by simp [Account.initial, initial]⟩, nofun, fun _ _ => ⟨rfl, rfl⟩⟩
    have hb : a.Balanced := Meets.invariant (fun _ _ ha hcl => ha.step hcl) hst h
    have hr := hb.stream id s hs
    omega
  · have hc : a.manager.connectionRemoteWindow + a.totalReserved = 65535 + a.connectionGranted :=
      foldlRecOn (motive := fun a : Account => a.manager.connectionRemoteWindow + a.totalReserved = 65535 + a.connectionGranted)
        calls _ rfl fun _ ha call _ => Account.connection_step ha call
    omega

/-- A part of the window of a stream is reserved, and the initial window is raised. -/
theorem reserved_within_raised :
    let a := [WindowCall.openStream 1 true true, .reserveSendWindow 1 100, .updateRemoteInitialWindow 70000].foldl Account.step .initial
    a.reserved 1 = 100 ∧ a.reserved 1 ≤ a.manager.initialRemoteWindow + a.granted 1 := by
  have hmt : Meets Account.step TakesNoMore .initial
      [.openStream 1 true true, .reserveSendWindow 1 100, .updateRemoteInitialWindow 70000] := by
    refine ⟨⟨rfl, rfl⟩, trivial, fun id s hs => ?_, trivial⟩
    show 65535 ≤ s.remoteWindow + 70000
    omega
  exact ⟨by decide, (reserved_within _).1 hmt 1 ⟨69900, 65535⟩ (by decide)⟩

/-- The whole window of a stream is reserved; the initial window is lowered to nothing and raised again; and the whole window is reserved
once more. -/
theorem reserved_twice :
    let a := [WindowCall.openStream 1 true true, .reserveSendWindow 1 65535, .updateRemoteInitialWindow 0,
      .updateRemoteInitialWindow 65535, .updateConnectionRemoteWindow 65535, .reserveSendWindow 1 65535].foldl Account.step .initial
    a.manager.streams 1 ≠ none ∧ a.manager.initialRemoteWindow + a.granted 1 < a.reserved 1 := by
  decide

end Libft.Networking.Http2
