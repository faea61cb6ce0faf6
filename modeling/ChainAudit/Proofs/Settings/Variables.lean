import ChainAudit.Proofs.Decimal.Spelling
import ChainAudit.Settings.Variables
import Mathlib.Data.List.Nodup
import Mathlib.Logic.Function.Basic

/-!
# Each variable sets one field

A field of the settings is given by one variable and by nothing else. So a change of a variable is
seen in the field of that variable alone, and where the text of a variable is none that the field
can be read from, it is as if the variable were not there.
-/

namespace ChainAudit

open ChainAudit.Decimal ChainAudit.Text

/-- The fields of settings that variables give. -/
inductive Setting where
  | storeUrl
  | storeTimeout
  | storeRate
  | storeBurst
  | webhookUrl
  | webhookTimeout
  | maxAttempts
  | retryDelay
  | projects
  | headApi
  | workers
  | maxDepth
  | stuck
  | runTimeout
  | interval
  deriving DecidableEq

namespace Setting

def all : List Setting :=
  [storeUrl, storeTimeout, storeRate, storeBurst, webhookUrl, webhookTimeout, maxAttempts,
    retryDelay, projects, headApi, workers, maxDepth, stuck, runTimeout, interval]

def name (f : Setting) : String :=
  Settings.variableStart ++ match f with
    | storeUrl => "STORE_URL"
    | storeTimeout => "STORE_TIMEOUT"
    | storeRate => "STORE_RPS"
    | storeBurst => "STORE_BURST"
    | webhookUrl => "WEBHOOK_URL"
    | webhookTimeout => "WEBHOOK_TIMEOUT"
    | maxAttempts => "NOTIFY_MAX_ATTEMPTS"
    | retryDelay => "NOTIFY_RETRY_DELAY_MS"
    | projects => "PROJECTS"
    | headApi => "HEAD_API_URL"
    | workers => "WORKERS"
    | maxDepth => "MAX_DEPTH"
    | stuck => "STUCK_THRESHOLD"
    | runTimeout => "RUN_TIMEOUT"
    | interval => "INTERVAL"

def Content : Setting → Type
  | storeUrl => String
  | storeRate => Float
  | webhookUrl | headApi => Option String
  | projects => List Project
  | _ => Nat

def get : (f : Setting) → Settings → f.Content
  | storeUrl, s => s.store.url
  | storeTimeout, s => s.store.timeoutSecs
  | storeRate, s => s.store.perSecond
  | storeBurst, s => s.store.burst
  | webhookUrl, s => s.webhook.url
  | webhookTimeout, s => s.webhook.timeoutSecs
  | maxAttempts, s => s.webhook.maxAttempts
  | retryDelay, s => s.webhook.retryDelayMs
  | projects, s => s.projects
  | headApi, s => s.headApi
  | workers, s => s.workers
  | maxDepth, s => s.maxDepth
  | stuck, s => s.stuckSecs
  | runTimeout, s => s.runTimeoutSecs
  | interval, s => s.intervalSecs

def put : (f : Setting) → f.Content → Settings → Settings
  | storeUrl, x, s => { s with store := { s.store with url := x } }
  | storeTimeout, x, s => { s with store := { s.store with timeoutSecs := x } }
  | storeRate, x, s => { s with store := { s.store with perSecond := x } }
  | storeBurst, x, s => { s with store := { s.store with burst := x } }
  | webhookUrl, x, s => { s with webhook := { s.webhook with url := x } }
  | webhookTimeout, x, s => { s with webhook := { s.webhook with timeoutSecs := x } }
  | maxAttempts, x, s => { s with webhook := { s.webhook with maxAttempts := x } }
  | retryDelay, x, s => { s with webhook := { s.webhook with retryDelayMs := x } }
  | projects, x, s => { s with projects := x }
  | headApi, x, s => { s with headApi := x }
  | workers, x, s => { s with workers := x }
  | maxDepth, x, s => { s with maxDepth := x }
  | stuck, x, s => { s with stuckSecs := x }
  | runTimeout, x, s => { s with runTimeoutSecs := x }
  | interval, x, s => { s with intervalSecs := x }

/-- Settings with these contents of their fields. -/
def assemble (content : (f : Setting) → f.Content) : Settings where
  store := ⟨content storeUrl, content storeTimeout, content storeRate, content storeBurst⟩
  webhook := ⟨content webhookUrl, content webhookTimeout, content maxAttempts, content retryDelay⟩
  projects := content projects
  headApi := content headApi
  workers := content workers
  maxDepth := content maxDepth
  stuckSecs := content stuck
  runTimeoutSecs := content runTimeout
  intervalSecs := content interval

/-- What the text of its variable makes of a field, if it is not blank. -/
def read? : (f : Setting) → String → Option f.Content
  | storeUrl, text => some text
  | storeRate, text => readFloat? (trimChars text.toList)
  | storeBurst, text | maxAttempts, text => readNumber? bound32 (trimChars text.toList)
  | webhookUrl, text | headApi, text => some (some text)
  | projects, text => some (Project.ofList text.toList)
  | storeTimeout, text | webhookTimeout, text | retryDelay, text | workers, text | maxDepth, text
  | stuck, text | runTimeout, text | interval, text => readNumber? bound64 (trimChars text.toList)

/-- What a field holds where its variable has a value, or has none. -/
def held (f : Setting) (value : Option String) : f.Content :=
  ((value.filter fun text => !isBlankText text).bind f.read?).getD (f.get .standard)

/-- A number below a bound, which may have a plus sign in front. -/
def CountText (bound : Nat) (cs : List Char) : Prop :=
  ∃ n < bound, Numeral cs n ∨ ∃ ds, cs = '+' :: ds ∧ Numeral ds n

/-- The texts that a field can be read from, without the blanks around them. -/
def Legible : Setting → List Char → Prop
  | storeUrl, _ | webhookUrl, _ | headApi, _ | projects, _ => True
  | storeRate, cs => DoubleText cs
  | storeBurst, cs | maxAttempts, cs => CountText bound32 cs
  | _, cs => CountText bound64 cs

/-- A variable is missing, or has a text that is blank or that its field cannot be read from. -/
inductive Idle (f : Setting) : Option String → Prop
  | missing : f.Idle none
  | blank {text : String} (hblank : ∀ c ∈ text.toList, isBlank c = true) : f.Idle (some text)
  | illegible {text : String} (hread : ¬ f.Legible (trimChars text.toList)) : f.Idle (some text)

section Contents

variable {f : Setting}

theorem map_name_all : all.map name = Settings.variableNames := rfl

theorem mem_all (f : Setting) : f ∈ all := by cases f <;> decide

theorem name_injective : Function.Injective name := by
  have hnodup : (all.map name).Nodup := by decide +kernel
  exact fun f g h => List.inj_on_of_nodup_map hnodup (mem_all f) (mem_all g) h

theorem assemble_get (s : Settings) : (assemble fun f => f.get s) = s := rfl

theorem put_assemble (content : (f : Setting) → f.Content) (f : Setting) (x : f.Content) :
    f.put x (assemble content) = assemble (Function.update content f x) := by
  cases f <;> rfl

theorem get_ofVariables (lookup : Settings.Lookup) (f : Setting) :
    f.get (.ofVariables lookup) = f.held (lookup f.name) := by
  have hsome : ∀ text : Option String, (text.bind fun t => some (some t)).getD none = text := by
    rintro (_ | _) <;> rfl
  cases f with
  | storeUrl =>
    change (Settings.textOf lookup "STORE_URL").getD _ =
      ((Settings.textOf lookup "STORE_URL").bind some).getD _
    rw [Option.bind_fun_some]
    rfl
  | webhookUrl => exact (hsome _).symm
  | headApi => exact (hsome _).symm
  | projects =>
    change Settings.projectsOf lookup =
      ((Settings.textOf lookup "PROJECTS").bind fun t => some (Project.ofList t.toList)).getD []
    rw [Settings.projectsOf]
    cases Settings.textOf lookup "PROJECTS" <;> rfl
  | _ => rfl

theorem ofVariables_eq (lookup : Settings.Lookup) :
    Settings.ofVariables lookup = assemble fun f => f.held (lookup f.name) := by
  rw [← assemble_get (.ofVariables lookup)]
  exact congrArg assemble (funext (get_ofVariables lookup))

theorem read?_isSome_iff {text : String} :
    (f.read? text).isSome = true ↔ f.Legible (trimChars text.toList) := by
  have hcount : ∀ {bound cs}, (readNumber? bound cs).isSome = true ↔ CountText bound cs := by
    intro bound cs
    simp only [Option.isSome_iff_exists, readNumber?_eq_some_iff, CountText, and_comm]
  cases f with
  | storeUrl => exact iff_of_true rfl trivial
  | webhookUrl => exact iff_of_true rfl trivial
  | headApi => exact iff_of_true rfl trivial
  | projects => exact iff_of_true rfl trivial
  | storeRate => exact readFloat?_isSome_iff
  | _ => exact hcount

theorem held_of_idle {value : Option String} (h : f.Idle value) :
    f.held value = f.get .standard := by
  cases h with
  | missing => rfl
  | @blank text hblank =>
    have hall : isBlankText text = true := List.all_eq_true.mpr hblank
    have hfilter : (some text).filter (fun t => !isBlankText t) = none := by
      simp [Option.filter, hall]
    rw [held, hfilter]
    rfl
  | @illegible text hread =>
    have hnone : f.read? text = none := by simpa [← read?_isSome_iff] using hread
    rw [held]
    cases hfilter : (some text).filter fun t => !isBlankText t with
    | none => rfl
    | some t =>
      obtain ⟨rfl, -⟩ : text = t ∧ _ := by simpa using hfilter
      rw [Option.bind_some, hnone]
      rfl

end Contents

/-- Whatever a variable is changed to, only its own field changes. Where the field cannot be read
from it, the settings are the same as without the variable, and without all of the variables they
are the standard ones. -/
theorem variables_set_own_fields (lookup : Settings.Lookup) :
    (∀ (f : Setting) (value : Option String),
      Settings.ofVariables (Function.update lookup f.name value) =
        f.put (f.held value) (.ofVariables lookup)) ∧
    (∀ (f : Setting) (value : Option String), f.Idle value →
      Settings.ofVariables (Function.update lookup f.name value) =
        .ofVariables (Function.update lookup f.name none)) ∧
    ((∀ name ∈ Settings.variableNames, lookup name = none) →
      Settings.ofVariables lookup = .standard) := by
  have hown : ∀ (f : Setting) (value : Option String),
      Settings.ofVariables (Function.update lookup f.name value) =
        f.put (f.held value) (.ofVariables lookup) := by
    intro f value
    rw [ofVariables_eq, ofVariables_eq, put_assemble]
    congr 1
    funext g
    by_cases hg : g = f
    · subst hg
      simp
    · rw [Function.update_of_ne hg, Function.update_of_ne (fun h => hg (name_injective h))]
  refine ⟨hown, ?_, ?_⟩
  · intro f value hidle
    rw [hown, hown, held_of_idle hidle, held_of_idle .missing]
  · intro hnone
    have hstandard : ∀ f : Setting, f.held (lookup f.name) = f.get .standard := by
      intro f
      have hname : f.name ∈ Settings.variableNames := by
        rw [← map_name_all]
        exact List.mem_map_of_mem (mem_all f)
      rw [hnone f.name hname]
      rfl
    rw [ofVariables_eq, funext hstandard, assemble_get]

/-- A count that is a word and a rate that is an ideographic space are as if they were missing, and
a variable of another program gives nothing. -/
theorem variables_set_own_fields_odd_workers :
    let lookup : Settings.Lookup := Function.update (fun _ => none) "PATH" (some "/bin")
    workers.Idle (some "many") ∧ storeRate.Idle (some "\u3000") ∧
      (∀ name ∈ Settings.variableNames, lookup name = none) ∧
      Settings.ofVariables (Function.update lookup workers.name (some "many")) =
        .ofVariables (Function.update lookup workers.name none) ∧
      Settings.ofVariables (Function.update lookup storeRate.name (some "\u3000")) =
        .ofVariables (Function.update lookup storeRate.name none) ∧
      Settings.ofVariables lookup = .standard := by
  intro lookup
  have hword : workers.Idle (some "many") := .illegible fun h => by
    have hread := read?_isSome_iff.mpr h
    revert hread
    decide +kernel
  have hspace : storeRate.Idle (some "\u3000") :=
    .blank (List.all_eq_true.mp (by decide +kernel))
  have hnone : ∀ name ∈ Settings.variableNames, lookup name = none := by
    simp only [lookup]
    decide +kernel
  obtain ⟨-, hidle, hstandard⟩ := variables_set_own_fields lookup
  exact ⟨hword, hspace, hnone, hidle _ _ hword, hidle _ _ hspace, hstandard hnone⟩

end Setting

end ChainAudit
