import ExpiringCache.Arithmetic
import ExpiringCache.Proofs.Text.DecimalReading
import ExpiringCache.Proofs.Text.Trimming
import ExpiringCache.Settings

/-!
# Settings are read exactly

Each setting is the value that the text of its variable denotes, and its default if the variable is
not set, is not text or denotes no value in range. It depends on no other variable. The warnings are
the variables that are set to a text without a value, in reading order, with the text as it was.
Settings that are written out as an environment are read back, without a warning.
-/
namespace ExpiringCache.Settings

/-- A decimal numeral of a number between two bounds; only signed numbers may have a minus. -/
def Numeral (signed : Bool) (low high : Int) (text : String) (n : Int) : Prop :=
  Decimal.Denotes signed text.toList n ∧ low ≤ n ∧ n ≤ high

abbrev Signed32 : String → Int → Prop := Numeral true (-2 ^ 31) (2 ^ 31 - 1)

abbrev Signed64 : String → Int → Prop := Numeral true (-2 ^ 63) (2 ^ 63 - 1)

abbrev Unsigned64 : String → Int → Prop := Numeral false 0 (2 ^ 64 - 1)

/-- The texts that a variable takes. -/
def Takes (text : String) : Variable → Prop
  | .defaultIdle | .updateIdle => ∃ n, Signed32 text n
  | .maxCache => ∃ n, Signed64 text n
  | .expireJitter | .sweepInterval => ∃ n, Unsigned64 text n
  | .writeMode => ∃ mode : WriteMode, mode.IsNamedIn text

variable {β γ : Type}

/-- A variable that is set to the bytes of a text that denotes a value. -/
def Asks (env : Environment) (var : Variable) (denotes : String → β → Prop) (value : β) : Prop :=
  ∃ text, env var = some (Utf8.encode text) ∧ denotes text value

/-- A field that has the value that its variable asks for, and its default if there is none. -/
structure Decides (env : Environment) (var : Variable) (denotes : String → β → Prop)
    (default field : β) : Prop where
  asked : ∀ value, Asks env var denotes value → field = value
  otherwise : (∀ value, ¬ Asks env var denotes value) → field = default

/-- How settings and warnings stand to the environment from which they are read. -/
structure ReadFrom (env : Environment) (settings : Settings) (warnings : List Warning) : Prop where
  defaultIdle : Decides env .defaultIdle Signed32 standard.defaultIdle.toInt
    settings.defaultIdle.toInt
  updateIdle : ∀ value, settings.updateIdle.map Int32.toInt = some value ↔
    Asks env .updateIdle Signed32 value
  maxCache : Decides env .maxCache Signed64 standard.maxCache.toInt settings.maxCache.toInt
  expireJitter : Decides env .expireJitter Unsigned64 standard.expireJitter.toNat
    settings.expireJitter.toNat
  writeMode : Decides env .writeMode (fun text mode => mode.IsNamedIn text) standard.writeMode
    settings.writeMode
  sweepInterval : Decides env .sweepInterval Unsigned64 standard.sweepInterval.toNat
    settings.sweepInterval.toNat
  /-- A warning tells of a text that its variable does not take. -/
  warned : ∀ warning, warning ∈ warnings ↔
    env warning.var = some (Utf8.encode warning.text) ∧ ¬ Takes warning.text warning.var
  /-- There is at most one warning of a variable, and they come in reading order. -/
  inOrder : (warnings.map Warning.var).Sublist Variable.all

/-- Whether two settings have the same value for a variable. -/
def SameFor (settings other : Settings) : Variable → Prop
  | .defaultIdle => settings.defaultIdle = other.defaultIdle
  | .updateIdle => settings.updateIdle = other.updateIdle
  | .maxCache => settings.maxCache = other.maxCache
  | .expireJitter => settings.expireJitter = other.expireJitter
  | .writeMode => settings.writeMode = other.writeMode
  | .sweepInterval => settings.sweepInterval = other.sweepInterval

/-- The environment that sets every variable to its setting, in decimal or by name. Without an idle
limit for updates that variable stays unset. -/
def written (settings : Settings) : Environment
  | .defaultIdle => some (Utf8.encode (Decimal.ofInt settings.defaultIdle.toInt))
  | .updateIdle => settings.updateIdle.map fun word => Utf8.encode (Decimal.ofInt word.toInt)
  | .maxCache => some (Utf8.encode (Decimal.ofInt settings.maxCache.toInt))
  | .expireJitter => some (Utf8.encode (Decimal.ofNat settings.expireJitter.toNat))
  | .writeMode => some (Utf8.encode settings.writeMode.name)
  | .sweepInterval => some (Utf8.encode (Decimal.ofNat settings.sweepInterval.toNat))

/-- A parser that reads a text exactly if it denotes a value, and then as that value. -/
def Reads (parse : String → Option γ) (view : γ → β) (denotes : String → β → Prop) : Prop :=
  ∀ text value, (∃ word, parse text = some word ∧ view word = value) ↔ denotes text value

/-- A parser that takes a number if it fits a word reads the numerals of that word. -/
theorem reads_of_bounds {number : γ → Int} {view : β → Int} {wrap : γ → β} {fits : γ → Prop}
    [DecidablePred fits] {signed : Bool} {low high : Int} {take? : List Char → Option γ}
    (takes : ∀ chars z, (∃ n, take? chars = some n ∧ number n = z) ↔
      Decimal.Denotes signed chars z)
    (bounds : ∀ n, fits n ↔ low ≤ number n ∧ number n ≤ high)
    (same : ∀ n, fits n → view (wrap n) = number n) :
    Reads (fun text => (take? text.toList).bind fun n => if fits n then some (wrap n) else none)
      view (Numeral signed low high) := by
  intro text value
  rw [Numeral, ← takes]
  constructor
  · rintro ⟨word, hword, rfl⟩
    obtain ⟨n, hn, hkept⟩ := Option.bind_eq_some_iff.mp hword
    by_cases h : fits n
    · rw [if_pos h] at hkept
      obtain rfl := Option.some.inj hkept
      rw [same n h]
      exact ⟨⟨n, hn, rfl⟩, (bounds n).mp h⟩
    · rw [if_neg h] at hkept
      cases hkept
  · rintro ⟨⟨n, hn, rfl⟩, inBounds⟩
    have h : fits n := (bounds n).mpr inBounds
    exact ⟨wrap n, by simp only [hn, Option.bind_some, if_pos h], same n h⟩

theorem takes_signed? (chars : List Char) (z : Int) :
    (∃ n, Decimal.signed? chars = some n ∧ id n = z) ↔ Decimal.Denotes true chars z := by
  simp only [id, exists_eq_right, Decimal.signed?_eq_some_iff]

theorem reads_parseInt32 : Reads parseInt32 Int32.toInt Signed32 := by
  have hparse : parseInt32 = fun text => (Decimal.signed? text.toList).bind fun n =>
      if -2 ^ 31 ≤ n ∧ n < 2 ^ 31 then some (Int32.ofInt n) else none := by
    funext text
    unfold parseInt32
    cases Decimal.signed? text.toList <;> rfl
  rw [hparse]
  refine reads_of_bounds takes_signed? (fun n => ?_) fun n h => Int32.toInt_ofInt_of_le h.1 h.2
  simp only [id]
  omega

theorem reads_parseInt64 : Reads parseInt64 Int64.toInt Signed64 := by
  have hparse : parseInt64 = fun text => (Decimal.signed? text.toList).bind fun n =>
      if -2 ^ 63 ≤ n ∧ n < 2 ^ 63 then some (Int64.ofInt n) else none := by
    funext text
    unfold parseInt64
    cases Decimal.signed? text.toList <;> rfl
  rw [hparse]
  refine reads_of_bounds takes_signed? (fun n => ?_) fun n h => Int64.toInt_ofInt_of_le h.1 h.2
  simp only [id]
  omega

theorem reads_parseUInt64 :
    Reads parseUInt64 (fun word => (word.toNat : Int)) Unsigned64 := by
  have hparse : parseUInt64 = fun text => (Decimal.unsigned? text.toList).bind fun n =>
      if n < 2 ^ 64 then some (UInt64.ofNat n) else none := by
    funext text
    unfold parseUInt64
    cases Decimal.unsigned? text.toList <;> rfl
  rw [hparse]
  refine reads_of_bounds (fun _ _ => Decimal.exists_unsigned?_eq_some_iff) (fun n => ?_)
    fun n h => congrArg Int.ofNat (UInt64.toNat_ofNat_of_lt' h)
  omega

theorem reads_parseMode : Reads parseMode id fun text mode => mode.IsNamedIn text := by
  intro text mode
  simp only [id, exists_eq_right, ← WriteMode.parse_eq_ok_iff, parseMode]
  cases WriteMode.parse text <;> simp [Except.toOption]

variable {env : Environment} {var : Variable}

theorem text?_eq_some_iff {text : String} :
    text? env var = some text ↔ env var = some (Utf8.encode text) := by
  simp only [text?, Option.bind_eq_some_iff, Utf8.decode_eq_some_iff, exists_eq_right]

section Reading

variable {parse : String → Option γ} {view : γ → β} {denotes : String → β → Prop}

theorem asks_iff (reads : Reads parse view denotes) {value : β} :
    Asks env var denotes value ↔
      ∃ word, (text? env var).bind parse = some word ∧ view word = value := by
  simp only [Asks, ← text?_eq_some_iff, ← reads _ _, Option.bind_eq_some_iff]
  constructor
  · rintro ⟨text, htext, word, hword, hvalue⟩
    exact ⟨word, ⟨text, htext, hword⟩, hvalue⟩
  · rintro ⟨word, ⟨text, htext, hword⟩, hvalue⟩
    exact ⟨text, htext, word, hword, hvalue⟩

/-- A field that is parsed from its variable, with a default in reserve. -/
theorem decides_of_reads (reads : Reads parse view denotes) (default : γ) :
    Decides env var denotes (view default)
      (view (((text? env var).bind parse).getD default)) := by
  constructor
  case asked =>
    intro value hasks
    obtain ⟨word, hword, rfl⟩ := (asks_iff reads).mp hasks
    rw [hword, Option.getD_some]
  case otherwise =>
    intro hnone
    cases hword : (text? env var).bind parse with
    | none => rfl
    | some word => exact absurd ((asks_iff reads).mpr ⟨word, hword, rfl⟩) (hnone _)

theorem isSome_iff_of_reads (reads : Reads parse view denotes) (text : String) :
    (parse text).isSome = true ↔ ∃ value, denotes text value := by
  simp only [← reads _ _, Option.isSome_iff_exists]
  constructor
  · rintro ⟨word, hword⟩
    exact ⟨_, word, hword, rfl⟩
  · rintro ⟨-, word, hword, -⟩
    exact ⟨word, hword⟩

end Reading

theorem accepts_iff (var : Variable) (text : String) :
    accepts var text = true ↔ Takes text var := by
  cases var with
  | defaultIdle | updateIdle => exact isSome_iff_of_reads reads_parseInt32 text
  | maxCache => exact isSome_iff_of_reads reads_parseInt64 text
  | expireJitter | sweepInterval => exact isSome_iff_of_reads reads_parseUInt64 text
  | writeMode => exact isSome_iff_of_reads reads_parseMode text

theorem mem_warnings_iff {warning : Warning} : warning ∈ warnings env ↔
    env warning.var = some (Utf8.encode warning.text) ∧ ¬ Takes warning.text warning.var := by
  obtain ⟨var, text⟩ := warning
  simp only [warnings, List.mem_filterMap, Variable.mem_all, true_and, ← text?_eq_some_iff,
    ← accepts_iff]
  constructor
  · rintro ⟨other, hother⟩
    cases htext : text? env other with
    | none => simp [htext] at hother
    | some found =>
      simp only [htext] at hother
      split at hother
      next => cases hother
      next hrefused =>
        cases hother
        exact ⟨htext, hrefused⟩
  · rintro ⟨htext, hrefused⟩
    exact ⟨var, by simp [htext, hrefused]⟩

/-- What comes of a list, each element by itself, comes in the order of the list. -/
theorem sublist_map_filterMap {f : γ → Option β} {g : β → γ}
    (inverse : ∀ {x y}, f x = some y → g y = x) (list : List γ) :
    ((list.filterMap f).map g).Sublist list := by
  induction list with
  | nil => exact .slnil
  | cons x rest ih =>
    cases hx : f x with
    | none =>
      rw [List.filterMap_cons_none hx]
      exact ih.cons x
    | some y =>
      rw [List.filterMap_cons_some hx, List.map_cons, inverse hx]
      exact ih.cons_cons x

theorem sublist_vars_warnings (env : Environment) :
    ((warnings env).map Warning.var).Sublist Variable.all := by
  refine sublist_map_filterMap (fun {var warning} hwarning => ?_) Variable.all
  split at hwarning
  next text htext =>
    split at hwarning
    next => cases hwarning
    next => exact congrArg Warning.var (Option.some.inj hwarning).symm
  next => cases hwarning

theorem readFrom_ofEnvironment (env : Environment) :
    ReadFrom env (ofEnvironment env) (warnings env) where
  defaultIdle := decides_of_reads reads_parseInt32 standard.defaultIdle
  updateIdle value := by
    rw [asks_iff reads_parseInt32, Option.map_eq_some_iff]
    rfl
  maxCache := decides_of_reads reads_parseInt64 standard.maxCache
  expireJitter := decides_of_reads reads_parseUInt64 standard.expireJitter
  writeMode := decides_of_reads reads_parseMode standard.writeMode
  sweepInterval := decides_of_reads reads_parseUInt64 standard.sweepInterval
  warned _ := mem_warnings_iff
  inOrder := sublist_vars_warnings env

/-- A setting is read from the bytes of its own variable. -/
theorem sameFor_of_eq {other : Environment} (h : env var = other var) :
    (ofEnvironment env).SameFor (ofEnvironment other) var := by
  have htext : text? env var = text? other var := by rw [text?, h, text?]
  cases var <;> simp only [SameFor, ofEnvironment, htext]

theorem signed32_ofInt (word : Int32) : Signed32 (Decimal.ofInt word.toInt) word.toInt := by
  have hlt := word.toInt_lt
  exact ⟨Decimal.denotes_ofInt _, word.le_toInt, by omega⟩

theorem signed64_ofInt (word : Int64) : Signed64 (Decimal.ofInt word.toInt) word.toInt := by
  have hlt := word.toInt_lt
  exact ⟨Decimal.denotes_ofInt _, word.le_toInt, by omega⟩

theorem unsigned64_ofNat (word : UInt64) : Unsigned64 (Decimal.ofNat word.toNat) word.toNat := by
  have hlt := word.toNat_lt
  exact ⟨Decimal.denotes_ofNat false _, by omega, by omega⟩

theorem takes_of_written {settings : Settings} {text : String}
    (h : written settings var = some (Utf8.encode text)) : Takes text var := by
  have hinj : ∀ {other : String}, Utf8.encode other = Utf8.encode text → other = text := by
    intro other heq
    have hdecoded := Utf8.decode_encode other
    rw [heq, Utf8.decode_encode] at hdecoded
    exact (Option.some.inj hdecoded).symm
  cases var with
  | defaultIdle => exact hinj (Option.some.inj h) ▸ ⟨_, signed32_ofInt _⟩
  | updateIdle =>
    obtain ⟨word, -, hword⟩ := Option.map_eq_some_iff.mp h
    exact hinj hword ▸ ⟨_, signed32_ofInt word⟩
  | maxCache => exact hinj (Option.some.inj h) ▸ ⟨_, signed64_ofInt _⟩
  | expireJitter => exact hinj (Option.some.inj h) ▸ ⟨_, unsigned64_ofNat _⟩
  | writeMode => exact hinj (Option.some.inj h) ▸ ⟨_, settings.writeMode.isNamedIn_name⟩
  | sweepInterval => exact hinj (Option.some.inj h) ▸ ⟨_, unsigned64_ofNat _⟩

/-- A variable that takes its text is not warned of. -/
theorem warnings_written (settings : Settings) : warnings (written settings) = [] := by
  rw [List.eq_nil_iff_forall_not_mem]
  intro warning hmem
  obtain ⟨hset, hrefused⟩ := mem_warnings_iff.mp hmem
  exact hrefused (takes_of_written hset)

/-- Settings that have the same value for every variable are the same. -/
theorem eq_of_sameFor {settings other : Settings} (h : ∀ var, settings.SameFor other var) :
    settings = other := by
  cases settings
  cases other
  rw [mk.injEq]
  exact ⟨h .defaultIdle, h .updateIdle, h .maxCache, h .expireJitter, h .writeMode,
    h .sweepInterval⟩

/-- What is written denotes the settings, and what denotes settings is read as them. -/
theorem ofEnvironment_written (settings : Settings) :
    ofEnvironment (written settings) = settings := by
  have read := readFrom_ofEnvironment (written settings)
  refine eq_of_sameFor fun var => ?_
  cases var with
  | defaultIdle =>
    exact Int32.toInt_inj.mp (read.defaultIdle.asked _ ⟨_, rfl, signed32_ofInt _⟩)
  | updateIdle =>
    cases hword : settings.updateIdle with
    | none =>
      cases hread : (ofEnvironment (written settings)).updateIdle with
      | none => exact hread.trans hword.symm
      | some found =>
        obtain ⟨text, hset, -⟩ := (read.updateIdle found.toInt).mp (by rw [hread]; rfl)
        simp [written, hword] at hset
    | some word =>
      have hasks : Asks (written settings) .updateIdle Signed32 word.toInt :=
        ⟨_, by simp only [written, hword, Option.map_some], signed32_ofInt word⟩
      obtain ⟨found, hfound, heq⟩ := Option.map_eq_some_iff.mp ((read.updateIdle _).mpr hasks)
      obtain rfl := Int32.toInt_inj.mp heq
      exact hfound.trans hword.symm
  | maxCache => exact Int64.toInt_inj.mp (read.maxCache.asked _ ⟨_, rfl, signed64_ofInt _⟩)
  | expireJitter =>
    exact UInt64.toNat_inj.mp
      (Int.ofNat_inj.mp (read.expireJitter.asked _ ⟨_, rfl, unsigned64_ofNat _⟩))
  | writeMode => exact read.writeMode.asked _ ⟨_, rfl, settings.writeMode.isNamedIn_name⟩
  | sweepInterval =>
    exact UInt64.toNat_inj.mp
      (Int.ofNat_inj.mp (read.sweepInterval.asked _ ⟨_, rfl, unsigned64_ofNat _⟩))

/-- Every environment is read exactly, each variable by itself, and settings that are written out
are read back without a warning. -/
theorem settings_read_exactly :
    (∀ env, ReadFrom env (ofEnvironment env) (warnings env)) ∧
      (∀ env other var, env var = other var →
        (ofEnvironment env).SameFor (ofEnvironment other) var) ∧
      ∀ settings, ofEnvironment (written settings) = settings ∧ warnings (written settings) = [] :=
  ⟨readFrom_ofEnvironment, fun _ _ _ => sameFor_of_eq, fun settings =>
    ⟨ofEnvironment_written settings, warnings_written settings⟩⟩

/-- A number with a plus and zeros in front, the least number of 32 bits, and a mode in capitals
between blanks. What the other variables are set to makes no difference to the mode. -/
theorem settings_read_exactly_of_unusual_texts :
    let env : Environment := fun
      | .defaultIdle => some (Utf8.encode "+0060")
      | .updateIdle => some (Utf8.encode "-2147483648")
      | .maxCache => some (Utf8.encode "9223372036854775808")
      | .writeMode => some (Utf8.encode "\u3000SeRIALize\n")
      | _ => some [0xff]
    let other : Environment := fun var => if var = .writeMode then env var else none
    (ofEnvironment env).defaultIdle.toInt = 60 ∧
      (ofEnvironment env).updateIdle.map Int32.toInt = some (-2147483648) ∧
      (ofEnvironment env).writeMode = .serialize ∧ env .writeMode = other .writeMode ∧
      (ofEnvironment env).SameFor (ofEnvironment other) .writeMode := by
  intro env other
  have read := settings_read_exactly.1 env
  have hidle : Signed32 "+0060" 60 :=
    ⟨.plus ⟨by decide, List.all_eq_true.mp (by decide), by decide⟩, by decide, by decide⟩
  have hupdate : Signed32 "-2147483648" (-2147483648) :=
    ⟨.minus rfl ⟨by decide, List.all_eq_true.mp (by decide), by decide⟩, by decide, by decide⟩
  have hmode : WriteMode.serialize.IsNamedIn "\u3000SeRIALize\n" :=
    ⟨['\u3000'], "SeRIALize".toList, ['\n'], by decide, List.all_eq_true.mp (by decide),
      List.all_eq_true.mp (by decide), by decide⟩
  exact ⟨read.defaultIdle.asked 60 ⟨_, rfl, hidle⟩, (read.updateIdle _).mpr ⟨_, rfl, hupdate⟩,
    read.writeMode.asked _ ⟨_, rfl, hmode⟩, rfl, settings_read_exactly.2.1 env other _ rfl⟩

end ExpiringCache.Settings
