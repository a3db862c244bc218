import AttributeFilter.Command.Run
import Mathlib.Control.Monad.Basic

/-!
The limits of a command line against those of its configuration file. A file has to be sound by itself, whatever the
command line says. Apart from that, what a file says about a limit makes no difference where the command line gives
that limit.
-/

namespace AttributeFilter

namespace Config

variable {s s' : Settings} {env : Environment} {t : Text} {e : Fault}

-- What is wrong is a limit.
def Fault.IsUnsound (e : Fault) : Prop :=
  e = .zeroLength ∨ e = .zeroDepth

namespace Settings

-- One of the limits is zero.
def HasZero (s : Settings) : Prop :=
  s.limits.maxLength = 0 ∨ s.limits.maxDepth = 0

theorem checked_of_not_hasZero (h : ¬s.HasZero) : s.checked = .ok s := by
  have ⟨hl, hd⟩ := not_or.mp h
  rw [checked, if_neg hl, if_neg hd]

theorem exists_checked_of_hasZero (h : s.HasZero) : ∃ e, s.checked = .error e ∧ e.IsUnsound := by
  unfold checked
  split
  case isTrue     => exact ⟨_, rfl, .inl rfl⟩
  case isFalse hl => exact ⟨_, if_pos (h.resolve_left hl), .inr rfl⟩

-- A check sees no more of a limit than whether it is zero.
theorem checked_bind_congr {α : Type} {f : Settings → Except Fault α}
    (hl : s.limits.maxLength = 0 ↔ s'.limits.maxLength = 0)
    (hd : s.limits.maxDepth = 0 ↔ s'.limits.maxDepth = 0) (hf : f s = f s') :
    s.checked >>= f = s'.checked >>= f := by
  simp only [checked, hl, hd]
  split
  case isTrue  => rfl
  case isFalse =>
    split
    case isTrue  => rfl
    case isFalse => exact hf

theorem load_some (env : Environment) (t : Text) (o : Overrides) :
    load env (some t) o = decode env t >>= fun s => s.checked >>= fun s => (s.override o).checked :=
  bind_assoc (decode env t) checked fun s => (s.override o).checked

-- What is wrong with the text of a file is not what is wrong with its limits.
theorem not_isUnsound_of_decode (h : decode env t = .error e) : ¬e.IsUnsound := by
  unfold decode at h
  split at h
  case h_1 => cases h; rintro (h | h) <;> cases h
  case h_2 =>
    split at h
    case h_1 => cases h; rintro (h | h) <;> cases h
    case h_2 => cases h

end Settings
end Config

namespace Command.Arguments

open Config

variable {a : Arguments} {env : Environment} {file? file?' : Text → Option Text} {s s' : Settings} {e : Fault}

-- What the configuration file of a command line says, sound or not. Without a file all is as by default.
def written (a : Arguments) (env : Environment) (file? : Text → Option Text) : Except Fault Settings :=
  match a.config? with
  | none => .ok {}
  | some path =>
    match file? path with
    | none   => .error (.missing path)
    | some t => Settings.decode env t

theorem settings_eq (a : Arguments) (env : Environment) (file? : Text → Option Text) :
    a.settings env file? =
      a.written env file? >>= fun s => s.checked >>= fun s => (s.override a.overrides).checked := by
  unfold settings written
  cases a.config?
  case none => rfl
  case some path =>
    dsimp only
    cases file? path
    case none   => rfl
    case some t => exact Settings.load_some env t a.overrides

theorem settings_of_written (h : a.written env file? = .ok s) :
    a.settings env file? = s.checked >>= fun s => (s.override a.overrides).checked := by
  rw [settings_eq, h]
  rfl

theorem not_isUnsound_of_written (h : a.written env file? = .error e) : ¬e.IsUnsound := by
  unfold written at h
  split at h
  case h_1 => cases h
  case h_2 =>
    split at h
    case h_1 => cases h; rintro (h | h) <;> cases h
    case h_2 => exact Settings.not_isUnsound_of_decode h

theorem settings_congr (h : a.written env file? = .ok s) (h' : a.written env file?' = .ok s')
    (hl : s.limits.maxLength = 0 ↔ s'.limits.maxLength = 0)
    (hd : s.limits.maxDepth = 0 ↔ s'.limits.maxDepth = 0)
    (ho : s.override a.overrides = s'.override a.overrides) :
    a.settings env file? = a.settings env file?' := by
  rw [settings_of_written h, settings_of_written h']
  exact Settings.checked_bind_congr hl hd (congrArg Settings.checked ho)

theorem unsound_of_written_iff (h : a.written env file? = .ok s) :
    (∃ e, a.settings env file? = .error e ∧ e.IsUnsound) ↔ s.HasZero ∨ (s.override a.overrides).HasZero := by
  rw [settings_of_written h]
  by_cases hz : s.HasZero
  case pos =>
    have ⟨e, he, hu⟩ := Settings.exists_checked_of_hasZero hz
    exact iff_of_true ⟨e, by rw [he]; rfl, hu⟩ (.inl hz)
  case neg =>
    have hs : (s.checked >>= fun s => (s.override a.overrides).checked) = (s.override a.overrides).checked := by
      rw [Settings.checked_of_not_hasZero hz]
      rfl
    rw [hs]
    by_cases ho : (s.override a.overrides).HasZero
    case pos => exact iff_of_true (Settings.exists_checked_of_hasZero ho) (.inr ho)
    case neg =>
      rw [Settings.checked_of_not_hasZero ho]
      exact iff_of_false nofun (not_or.mpr ⟨hz, ho⟩)

-- What a file says about a limit that the command line gives makes no difference, as long as it is zero in both
-- files or in none. The limits are unsound if and only if one that the file says, or one that holds in the end, is
-- zero.
theorem settings_overridden (a : Arguments) (env : Environment) (file? file?' : Text → Option Text) :
    (∀ s m, a.written env file? = .ok s → a.written env file?' = .ok { s with limits.maxLength := m } →
      a.overrides.maxLength?.isSome → (s.limits.maxLength = 0 ↔ m = 0) →
      a.settings env file? = a.settings env file?') ∧
    (∀ s m, a.written env file? = .ok s → a.written env file?' = .ok { s with limits.maxDepth := m } →
      a.overrides.maxDepth?.isSome → (s.limits.maxDepth = 0 ↔ m = 0) →
      a.settings env file? = a.settings env file?') ∧
    ((∃ e, a.settings env file? = .error e ∧ e.IsUnsound) ↔
      ∃ s, a.written env file? = .ok s ∧ (s.HasZero ∨ (s.override a.overrides).HasZero)) := by
  refine ⟨?length, ?depth, ?unsound⟩
  case length =>
    intro s m h h' ho hz
    have ⟨n, hn⟩ := Option.isSome_iff_exists.mp ho
    exact settings_congr h h' hz .rfl (by rw [Settings.override, Settings.override, hn]; rfl)
  case depth =>
    intro s m h h' ho hz
    have ⟨n, hn⟩ := Option.isSome_iff_exists.mp ho
    exact settings_congr h h' .rfl hz (by rw [Settings.override, Settings.override, hn]; rfl)
  case unsound =>
    cases hw : a.written env file?
    case error e =>
      have hs : a.settings env file? = .error e := by rw [settings_eq, hw]; rfl
      rw [hs]
      refine iff_of_false ?_ nofun
      rintro ⟨_, he, hu⟩
      cases he
      exact not_isUnsound_of_written hw hu
    case ok s =>
      rw [unsound_of_written_iff hw]
      exact ⟨fun h => ⟨s, rfl, h⟩, fun ⟨_, hs, h⟩ => Except.ok.inj hs ▸ h⟩

-- A command line with a configuration file, and with another limit than that of the file.
def limitedTokens : Arguments where
  verb      := .tokens
  filter    := "a".toList
  config?   := some "c.toml".toList
  overrides := { maxLength? := some 10 }

-- There is one file, which sets the greatest length.
def limitFile (length : Text) (path : Text) : Option Text :=
  if path = "c.toml".toList then some ("[parser]\nmax_length = ".toList ++ length) else none

theorem settings_overridden_limitFile :
    limitedTokens.settings [] (limitFile "5".toList) = limitedTokens.settings [] (limitFile "7".toList) := by
  let s : Settings := { limits := { maxLength := 5 } }
  have hs : limitedTokens.written [] (limitFile "5".toList) = .ok s := by decide +kernel
  have hs' : limitedTokens.written [] (limitFile "7".toList) = .ok { s with limits.maxLength := 7 } := by
    decide +kernel
  exact (settings_overridden _ _ _ _).left s 7 hs hs' rfl (by decide)

-- A limit of zero in a file is not made good by the command line.
theorem not_settings_overridden_zero :
    ¬∀ (a : Arguments) (env : Environment) (file? file?' : Text → Option Text) (s : Settings) (m : Nat),
      a.written env file? = .ok s → a.written env file?' = .ok { s with limits.maxLength := m } →
      a.overrides.maxLength?.isSome → a.settings env file? = a.settings env file?' := by
  intro h
  let s : Settings := { limits := { maxLength := 5 } }
  have hs : limitedTokens.written [] (limitFile "5".toList) = .ok s := by decide +kernel
  have hs' : limitedTokens.written [] (limitFile "0".toList) = .ok { s with limits.maxLength := 0 } := by
    decide +kernel
  exact absurd (h _ _ _ _ s 0 hs hs' rfl) (by decide +kernel)

end Command.Arguments
end AttributeFilter
