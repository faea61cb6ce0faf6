import ChainAudit.Proofs.Text
import ChainAudit.Settings.Masked

/-!
# What masking leaves in sight

Behind scheme and host masking hides everything from the first slash on, so two webhooks whose
paths follow the host are shown alike. What stands in front of the first slash stays in sight: the
start of a query or of a fragment, and all of it where there is no slash. Masking twice comes to
masking once.
-/

namespace ChainAudit.Settings

open ChainAudit.Text

/-- What stays in sight of a text behind a scheme: stars take the place of the first slash and of
all that follows it. -/
def inSight (cs : List Char) : List Char :=
  cs.takeWhile (· ≠ '/') ++ if '/' ∈ cs then "/***".toList else []

/-- A scheme and a host as they stand in front of a URL. -/
structure Origin (scheme host : List Char) : Prop where
  scheme : ¬ "://".toList <:+: scheme
  host : '/' ∉ host

/-- Settings whose webhook has a scheme, a host, and a tail behind the host. -/
def withWebhook (s : Settings) (scheme host tail : List Char) : Settings :=
  { s with webhook :=
    { s.webhook with url := some (String.ofList (scheme ++ "://".toList ++ (host ++ tail))) } }

section Sight

variable {cs before after front rest scheme host tail : List Char}

private theorem inSight_of_not_mem (h : '/' ∉ cs) : inSight cs = cs := by
  have hall : cs.takeWhile (· ≠ '/') = cs := by
    rw [List.takeWhile_eq_self_iff]
    intro c hc
    simpa using ne_of_mem_of_not_mem hc h
  rw [inSight, if_neg h, hall, List.append_nil]

private theorem inSight_append (h : '/' ∉ before) (cs : List Char) :
    inSight (before ++ cs) = before ++ inSight cs := by
  have hall : ∀ c ∈ before, decide (c ≠ '/') = true :=
    fun c hc => by simpa using ne_of_mem_of_not_mem hc h
  simp only [inSight, List.takeWhile_append_of_pos hall, List.mem_append, h, false_or,
    List.append_assoc]

private theorem inSight_slash (cs : List Char) : inSight ('/' :: cs) = "/***".toList := by
  simp [inSight]

private theorem inSight_inSight (cs : List Char) : inSight (inSight cs) = inSight cs := by
  by_cases h : '/' ∈ cs
  · obtain ⟨before, after, rfl, hbefore⟩ := List.eq_append_cons_of_mem h
    rw [inSight_append hbefore, inSight_append hbefore, inSight_slash]
    rfl
  · rw [inSight_of_not_mem h, inSight_of_not_mem h]

private theorem inSight_eq_iff {cs' : List Char} : inSight cs = inSight cs' ↔
    cs.takeWhile (· ≠ '/') = cs'.takeWhile (· ≠ '/') ∧ ('/' ∈ cs ↔ '/' ∈ cs') := by
  have hslash : ∀ cs, '/' ∈ inSight cs ↔ '/' ∈ cs := by
    intro cs
    have hnone : '/' ∉ cs.takeWhile (· ≠ '/') := fun h => by simpa using List.mem_takeWhile_imp h
    simp only [inSight, List.mem_append, hnone, false_or]
    split <;> simp_all
  constructor
  · intro h
    have hboth : '/' ∈ cs ↔ '/' ∈ cs' := by rw [← hslash cs, ← hslash cs', h]
    simp only [inSight, hboth] at h
    exact ⟨List.append_cancel_right h, hboth⟩
  · rintro ⟨hfront, hboth⟩
    simp only [inSight, hfront, hboth]

private theorem maskedUrl_eq {url : String} (h : splitScheme url.toList = (front, rest)) :
    maskedUrl url = String.ofList (front ++ inSight rest) := by
  rw [maskedUrl, h]
  dsimp only
  congr 1
  by_cases hslash : '/' ∈ rest
  · obtain ⟨before, after, rfl, hbefore⟩ := List.eq_append_cons_of_mem hslash
    rw [cutAt?_append hbefore, inSight_append hbefore, inSight_slash]
    exact List.append_assoc _ _ _
  · rw [cutAt?_eq_none_iff.mpr hslash, inSight_of_not_mem hslash]

/-- The mark behind a scheme is the first one, for it ends with the second of two slashes. -/
private theorem splitScheme_append (h : ¬ "://".toList <:+: scheme ++ ":/".toList)
    (rest : List Char) :
    splitScheme (scheme ++ "://".toList ++ rest) = (scheme ++ "://".toList, rest) := by
  rw [splitScheme, cutAt?_mark_append h]

private theorem splitScheme_inSight (h : splitScheme cs = (front, rest)) :
    splitScheme (front ++ inSight rest) = (front, inSight rest) := by
  have hmark : "://".toList ≠ [] := by decide
  rw [splitScheme] at h
  split at h
  · rename_i scheme rest' hcut
    obtain ⟨rfl, rfl⟩ : scheme ++ "://".toList = front ∧ rest' = rest := by simpa using h
    exact splitScheme_append ((cutAt?_mark_eq_some_iff hmark).mp hcut).2 _
  · rename_i hcut
    obtain ⟨rfl, rfl⟩ : [] = front ∧ cs = rest := by simpa using h
    have hnone : ¬ "://".toList <:+: inSight cs := by
      by_cases hslash : '/' ∈ cs
      · -- two slashes cannot be in sight without a scheme
        obtain ⟨before, after, rfl, hbefore⟩ := List.eq_append_cons_of_mem hslash
        intro h
        have hcount := h.sublist.count_le '/'
        rw [inSight_append hbefore, inSight_slash, List.count_append,
          List.count_eq_zero_of_not_mem hbefore] at hcount
        exact absurd hcount (by decide)
      · rw [inSight_of_not_mem hslash]
        exact (cutAt?_mark_eq_none_iff hmark).mp hcut
    rw [List.nil_append, splitScheme, (cutAt?_mark_eq_none_iff hmark).mpr hnone]

theorem maskedUrl_maskedUrl (url : String) : maskedUrl (maskedUrl url) = maskedUrl url := by
  obtain ⟨front, rest, hsplit⟩ : ∃ front rest, splitScheme url.toList = (front, rest) :=
    ⟨_, _, rfl⟩
  have hsight : splitScheme (String.ofList (front ++ inSight rest)).toList =
      (front, inSight rest) := by
    rw [String.toList_ofList]
    exact splitScheme_inSight hsplit
  rw [maskedUrl_eq hsplit, maskedUrl_eq hsight, inSight_inSight]

/-- Together with the start of a mark a scheme holds no mark, or it holds one by itself. -/
private theorem Origin.not_infix (h : Origin scheme host) :
    ¬ "://".toList <:+: scheme ++ ":/".toList := by
  intro hin
  have hparts : (scheme ++ ":/".toList).reverse = '/' :: ':' :: scheme.reverse := by simp
  -- a mark cannot end with either of the two characters
  have hback : "://".toList.reverse <:+: '/' :: ':' :: scheme.reverse :=
    hparts ▸ List.reverse_infix.mpr hin
  rw [List.infix_cons_iff, List.infix_cons_iff] at hback
  exact h.scheme (List.reverse_infix.mp (by simpa using hback))

theorem maskedUrl_origin (h : Origin scheme host) (tail : List Char) :
    maskedUrl (String.ofList (scheme ++ "://".toList ++ (host ++ tail))) =
      String.ofList (scheme ++ "://".toList ++ (host ++ inSight tail)) := by
  have hsplit : splitScheme (String.ofList (scheme ++ "://".toList ++ (host ++ tail))).toList =
      (scheme ++ "://".toList, host ++ tail) := by
    rw [String.toList_ofList]
    exact splitScheme_append h.not_infix _
  rw [maskedUrl_eq hsplit, inSight_append h.host]

end Sight

/-- Masking hides what follows the first slash behind a host, and nothing else: two webhooks with
the same host whose tails are paths are shown alike, and others are if their tails agree in front of
their first slashes and both have one or none has. Masking what is masked changes nothing. -/
theorem masked_hides_paths (s : Settings) :
    (∀ scheme host, Origin scheme host → ∀ path path',
      (s.withWebhook scheme host ('/' :: path)).masked =
        (s.withWebhook scheme host ('/' :: path')).masked) ∧
    (∀ scheme host, Origin scheme host → ∀ tail tail',
      (s.withWebhook scheme host tail).masked = (s.withWebhook scheme host tail').masked ↔
        tail.takeWhile (· ≠ '/') = tail'.takeWhile (· ≠ '/') ∧ ('/' ∈ tail ↔ '/' ∈ tail')) ∧
    s.masked.masked = s.masked := by
  have hexact : ∀ scheme host, Origin scheme host → ∀ tail tail',
      (s.withWebhook scheme host tail).masked = (s.withWebhook scheme host tail').masked ↔
        inSight tail = inSight tail' := by
    intro scheme host h tail tail'
    simp only [masked, withWebhook, Option.map_some, maskedUrl_origin h]
    constructor
    · intro hsame
      have hurl := congrArg (·.webhook.url) hsame
      simpa [String.ofList_inj] using hurl
    · intro hsame
      rw [hsame]
  refine ⟨?_, ?_, ?_⟩
  · intro scheme host h path path'
    rw [hexact scheme host h, inSight_slash, inSight_slash]
  · intro scheme host h tail tail'
    rw [hexact scheme host h, inSight_eq_iff]
  · have hurl : (s.webhook.url.map maskedUrl).map maskedUrl = s.webhook.url.map maskedUrl := by
      rw [Option.map_map, show maskedUrl ∘ maskedUrl = maskedUrl from funext maskedUrl_maskedUrl]
    simp only [masked, hurl]

/-- Settings whose webhook is at one host, with a tail behind it. -/
def hook (tail : String) : Settings :=
  standard.withWebhook "https".toList "hooks.example.com".toList tail.toList

theorem masked_hides_paths_hook :
    Origin "https".toList "hooks.example.com".toList ∧
      (hook "/services/T00/secret").masked = (hook "/a?b#c://d").masked ∧
      (hook "?to=a/b").masked = (hook "?to=a/c").masked := by
  have horigin : Origin "https".toList "hooks.example.com".toList := ⟨by decide, by decide⟩
  obtain ⟨hpaths, htails, -⟩ := masked_hides_paths .standard
  exact ⟨horigin, hpaths _ _ horigin _ _, (htails _ _ horigin _ _).mpr (by decide)⟩

/-- A secret in a query right behind the host stays in sight, so that two of them are told apart. -/
theorem query_in_sight :
    Origin "https".toList "hooks.example.com".toList ∧
      (hook "?token=a").masked ≠ (hook "?token=b").masked := by
  refine ⟨⟨by decide, by decide⟩, fun hsame => ?_⟩
  have hurl := congrArg (·.webhook.url) hsame
  exact absurd hurl (by decide +kernel)

end ChainAudit.Settings
