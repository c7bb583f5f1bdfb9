/-
# Reporting.Paths -- the lines of the graphite reporter

A report that finds the reporter connected goes through the three listings of the registry and writes
a line for every field of every metric. The path of a line is what stands before its first space:
`prefix(name, field)`, which is the name, a dot and the field.

No field has a dot, so a path is cut at its last dot into the name and the field (`path_inj`), also
when the name has dots. The kind of the metric is not part of it: `paths_nodup_iff` says that two lines
of a report carry the same path if and only if a timer has the name of a counter (both have `count`)
or of a meter (both have the three rates). `count_twice` is such a report.
-/
import Ccmetrics.Registry.Metrics
import Ccmetrics.Reporting.Graphite
import Ccmetrics.Theory.Lines
import Mathlib.Data.List.Nodup
import Mathlib.Data.List.ProdSigma

namespace Ccmetrics.Reporting

open Registry (Addr Call Kind MetricRegistryImpl play)

set_option autoImplicit false

variable {R : Type}

structure Snapshot (R : Type) where
  min : Int
  max : Int
  mean : R
  stdev : R
  median : R
  get75tile : R
  get95tile : R
  get99tile : R
  get999tile : R

structure Timer (R : Type) where
  count : Int
  oneMinuteRate : R
  fiveMinuteRate : R
  fifteenMinuteRate : R
  snapshot : Snapshot R

structure Meter (R : Type) where
  oneMinuteRate : R
  fiveMinuteRate : R
  fifteenMinuteRate : R

/-- What the objects answer while a report is written. `R` is `double`. -/
structure Readings (R : Type) where
  counter : Addr → Int
  timer : Addr → Timer R
  meter : Addr → Meter R

/-- The arguments of a `fmt::format`, and the blank that one format has before the newline. -/
structure Line where
  path : String
  value : String
  ts : Int
  blank : String
  deriving DecidableEq

def Line.format (l : Line) : String :=
  l.path ++ " " ++ l.value ++ " " ++ toString l.ts ++ l.blank ++ "\n"

namespace GraphiteReporter

def prefix_ (name val : String) : String := name ++ "." ++ val

def writeCounter (name : String) (counter : Int) (timestamp : Int) : List Line :=
  [⟨prefix_ name "count", toString counter, timestamp, ""⟩]

/-- `fmt` is the format `{:2.2f}`. -/
def writeTimer (fmt : R → String) (name : String) (timer : Timer R) (ts : Int) : List Line :=
  let snap := timer.snapshot
  [⟨prefix_ name "count", toString timer.count, ts, ""⟩,
    ⟨prefix_ name "m1_rate", fmt timer.oneMinuteRate, ts, ""⟩,
    ⟨prefix_ name "m5_rate", fmt timer.fiveMinuteRate, ts, ""⟩,
    ⟨prefix_ name "m15_rate", fmt timer.fifteenMinuteRate, ts, " "⟩,
    ⟨prefix_ name "min", toString snap.min, ts, ""⟩,
    ⟨prefix_ name "max", toString snap.max, ts, ""⟩,
    ⟨prefix_ name "mean", fmt snap.mean, ts, ""⟩,
    ⟨prefix_ name "stdev", fmt snap.stdev, ts, ""⟩,
    ⟨prefix_ name "median", fmt snap.median, ts, ""⟩,
    ⟨prefix_ name "p75", fmt snap.get75tile, ts, ""⟩,
    ⟨prefix_ name "p95", fmt snap.get95tile, ts, ""⟩,
    ⟨prefix_ name "p99", fmt snap.get99tile, ts, ""⟩,
    ⟨prefix_ name "p999", fmt snap.get999tile, ts, ""⟩]

def writeMeter (fmt : R → String) (name : String) (meter : Meter R) (ts : Int) : List Line :=
  [⟨prefix_ name "m1_rate", fmt meter.oneMinuteRate, ts, ""⟩,
    ⟨prefix_ name "m5_rate", fmt meter.fiveMinuteRate, ts, ""⟩,
    ⟨prefix_ name "m15_rate", fmt meter.fifteenMinuteRate, ts, " "⟩]

/-- What `report()` appends to its buffer. Unless it is connected it returns before that. -/
def writebuf (r : GraphiteReporter) (fmt : R → String) (readings : Readings R)
    (registry : MetricRegistryImpl) (unix_timestamp : Int) : List Line :=
  match r.state with
  | .disconnected | .connecting => []
  | .connected =>
      (registry.counters.entries.flatMap fun entry =>
          writeCounter entry.1 (readings.counter entry.2) unix_timestamp) ++
        (registry.timers.entries.flatMap fun entry =>
          writeTimer fmt entry.1 (readings.timer entry.2) unix_timestamp) ++
        registry.meters.entries.flatMap fun entry =>
          writeMeter fmt entry.1 (readings.meter entry.2) unix_timestamp

end GraphiteReporter

/-- The text on the wire. -/
def text (ls : List Line) : List Char := ls.flatMap fun l => l.format.toList

/-- The metric paths in a text: each line up to its first space. -/
def paths (text : List Char) : List (List Char) :=
  (Theory.lines '\n' text).map (·.takeWhile (· ≠ ' '))

/-! ## The text is cut into the lines that were written -/

theorem newline_notMem_digits (n : Nat) : '\n' ∉ Nat.toDigits 10 n := by
  intro member
  have digit := Nat.isDigit_of_mem_toDigits (by decide) (by decide) member
  cases digit

/-- Integers are printed with their digits and a sign. -/
theorem newline_notMem_int (i : Int) : '\n' ∉ (toString i).toList := by
  cases i with
  | ofNat n =>
      show '\n' ∉ n.repr.toList
      simp [newline_notMem_digits]
  | negSucc n =>
      show '\n' ∉ ("-" ++ (n + 1).repr).toList
      simp [newline_notMem_digits]

/-- A line whose parts do not look like the separators. -/
structure Line.Plain (l : Line) : Prop where
  space : ' ' ∉ l.path.toList
  path : '\n' ∉ l.path.toList
  value : '\n' ∉ l.value.toList
  blank : '\n' ∉ l.blank.toList

theorem paths_text {ls : List Line} (plain : ∀ l ∈ ls, l.Plain) :
    paths (text ls) = ls.map fun l => l.path.toList := by
  have format : ∀ l : Line, l.format.toList = (l.path.toList ++ ' ' ::
      (l.value.toList ++ ' ' :: ((toString l.ts).toList ++ l.blank.toList))) ++ ['\n'] := by
    intro l
    simp [Line.format]
  have cut : text ls = (ls.map fun l => l.path.toList ++ ' ' ::
      (l.value.toList ++ ' ' :: ((toString l.ts).toList ++ l.blank.toList))).flatMap (· ++ ['\n']) := by
    rw [text, List.flatMap_map]
    exact List.flatMap_congr fun l _ => format l
  rw [paths, cut, Theory.lines_flatMap, List.map_map]
  · exact List.map_congr_left fun l member => Theory.takeWhile_first (plain l member).space
  · intro row member
    obtain ⟨l, inList, rfl⟩ := List.mem_map.1 member
    obtain ⟨-, path, value, blank⟩ := plain l inList
    have ts := newline_notMem_int l.ts
    simp only [List.mem_append, List.mem_cons, path, value, blank, ts, or_false, Char.reduceEq,
      not_false_eq_true]

/-! ## Names and fields -/

namespace GraphiteReporter

def fields : Kind → List String
  | .counter => ["count"]
  | .timer => ["count", "m1_rate", "m5_rate", "m15_rate", "min", "max", "mean", "stdev", "median",
      "p75", "p95", "p99", "p999"]
  | .meter => ["m1_rate", "m5_rate", "m15_rate"]

theorem nodup_fields (kind : Kind) : (fields kind).Nodup := by cases kind <;> decide

/-- What a line is about: a field of a metric. -/
def samples (registry : MetricRegistryImpl) (kind : Kind) : List (String × String) :=
  ((registry.list kind).entries.map (·.1)) ×ˢ fields kind

def allSamples (registry : MetricRegistryImpl) : List (String × String) :=
  samples registry .counter ++ samples registry .timer ++ samples registry .meter

def path (sample : String × String) : List Char := (prefix_ sample.1 sample.2).toList

theorem path_eq (name field : String) : path (name, field) = name.toList ++ '.' :: field.toList := by
  simp [path, prefix_]

theorem dot_notMem_field {kind : Kind} {field : String} (member : field ∈ fields kind) :
    '.' ∉ field.toList := by
  have all : ∀ kind, ∀ field ∈ fields kind, '.' ∉ field.toList := by
    intro kind
    cases kind <;> decide
  exact all kind field member

theorem clean_field {kind : Kind} {field : String} (member : field ∈ fields kind) :
    ' ' ∉ field.toList ∧ '\n' ∉ field.toList := by
  have all : ∀ kind, ∀ field ∈ fields kind, ' ' ∉ field.toList ∧ '\n' ∉ field.toList := by
    intro kind
    cases kind <;> decide
  exact all kind field member

/-- The name and the field of a path are on the two sides of its last dot. -/
theorem path_inj {kind kind' : Kind} {name name' field field' : String}
    (member : field ∈ fields kind) (member' : field' ∈ fields kind')
    (same : path (name, field) = path (name', field')) : (name, field) = (name', field') := by
  rw [path_eq, path_eq, Theory.cut_last (dot_notMem_field member) (dot_notMem_field member')] at same
  rw [String.toList_inj.1 same.1, String.toList_inj.1 same.2]

variable {r : GraphiteReporter} {fmt : R → String} {readings : Readings R}
  {registry : MetricRegistryImpl} {ts : Int} {kind kind' : Kind} {name field : String}

theorem mem_samples : (name, field) ∈ samples registry kind ↔
    name ∈ (registry.list kind).entries.map (·.1) ∧ field ∈ fields kind := List.mem_product

theorem nodup_samples : (samples registry kind).Nodup := by
  refine List.Nodup.product ?_ (nodup_fields kind)
  refine ((registry.list kind).sorted.map _ fun a b below => ?_)
  exact ne_of_lt below

/-- Two kinds have a sample in common if they have both a name and a field in common. -/
theorem disjoint_samples : (samples registry kind).Disjoint (samples registry kind') ↔
    ((registry.list kind).entries.map (·.1)).Disjoint ((registry.list kind').entries.map (·.1)) ∨
      (fields kind).Disjoint (fields kind') := by
  constructor
  · intro disjoint
    by_contra common
    obtain ⟨names, fields⟩ := not_or.1 common
    simp only [List.Disjoint, not_forall, not_false_eq_true, exists_prop] at names fields
    obtain ⟨name, here, there, -⟩ := names
    obtain ⟨field, ofKind, ofKind', -⟩ := fields
    exact disjoint (mem_samples.2 ⟨here, ofKind⟩) (mem_samples.2 ⟨there, ofKind'⟩)
  · rintro (names | fields) ⟨name, field⟩ inKind inKind'
    · exact names (mem_samples.1 inKind).1 (mem_samples.1 inKind').1
    · exact fields (mem_samples.1 inKind).2 (mem_samples.1 inKind').2

theorem paths_writebuf (connected : r.state = .connected) :
    (r.writebuf fmt readings registry ts).map (fun l => l.path.toList) =
      (allSamples registry).map path := by
  have block : ∀ (kind : Kind) (write : String × Addr → List Line),
      (∀ e, (write e).map (·.path) = (fields kind).map (prefix_ e.1)) →
      ((registry.list kind).entries.flatMap write).map (fun l => l.path.toList) =
        (samples registry kind).map path := by
    intro kind write paths
    show _ = (List.product _ _).map path
    rw [List.product, List.map_flatMap, List.map_flatMap, List.flatMap_map]
    refine List.flatMap_congr fun e _ => ?_
    calc (write e).map (fun l => l.path.toList)
        = ((write e).map (·.path)).map String.toList := by rw [List.map_map]; rfl
      _ = ((fields kind).map (prefix_ e.1)).map String.toList := by rw [paths]
      _ = ((fields kind).map (Prod.mk e.1)).map path := by rw [List.map_map, List.map_map]; rfl
  have counters := block .counter (fun e => writeCounter e.1 (readings.counter e.2) ts) fun _ => rfl
  have timers := block .timer (fun e => writeTimer fmt e.1 (readings.timer e.2) ts) fun _ => rfl
  have meters := block .meter (fun e => writeMeter fmt e.1 (readings.meter e.2) ts) fun _ => rfl
  simp only [writebuf, connected, allSamples, List.map_append]
  rw [← counters, ← timers, ← meters]
  rfl

/-- The paths of a report are different if and only if the names of timers are their own. -/
theorem nodup_paths_samples : ((allSamples registry).map path).Nodup ↔
    ∀ name ∈ (registry.list .timer).entries.map (·.1),
      name ∉ (registry.list .counter).entries.map (·.1) ∧
      name ∉ (registry.list .meter).entries.map (·.1) := by
  have field : ∀ x ∈ allSamples registry, ∃ kind, x.2 ∈ fields kind := by
    intro x member
    rcases List.mem_append.1 member with member | inMeters
    · rcases List.mem_append.1 member with inCounters | inTimers
      · exact ⟨_, (mem_samples.1 inCounters).2⟩
      · exact ⟨_, (mem_samples.1 inTimers).2⟩
    · exact ⟨_, (mem_samples.1 inMeters).2⟩
  have injective : ∀ x ∈ allSamples registry, ∀ y ∈ allSamples registry, path x = path y → x = y :=
    fun x member y member' => path_inj (field x member).choose_spec (field y member').choose_spec
  have same : ((allSamples registry).map path).Nodup ↔ (allSamples registry).Nodup :=
    ⟨List.Nodup.of_map _, List.Nodup.map_on injective⟩
  -- which kinds have a field in common
  have counts : ¬ (fields .counter).Disjoint (fields .timer) := fun disjoint =>
    disjoint (a := "count") (by decide) (by decide)
  have rates : ¬ (fields .timer).Disjoint (fields .meter) := fun disjoint =>
    disjoint (a := "m1_rate") (by decide) (by decide)
  have apart : (fields .counter).Disjoint (fields .meter) := by
    intro field inCounter inMeter
    obtain rfl : field = "count" := List.mem_singleton.1 inCounter
    exact absurd inMeter (by decide)
  rw [same, allSamples]
  simp only [List.nodup_append', List.disjoint_append_left, nodup_samples, true_and, disjoint_samples,
    apart, rates, counts, or_false, or_true]
  constructor
  · rintro ⟨counters, meters⟩ name inTimers
    exact ⟨fun inCounters => counters inCounters inTimers, meters inTimers⟩
  · intro own
    exact ⟨fun name inCounters inTimers => (own name inTimers).1 inCounters,
      fun name inTimers => (own name inTimers).2⟩

/-! ## Lines of clean names are plain -/

/-- A line that is about a field of a clean name. -/
theorem plain_line (kind : Kind) {value blank : String} (clean : ' ' ∉ name.toList ∧ '\n' ∉ name.toList)
    (member : field ∈ fields kind) (value_ : '\n' ∉ value.toList) (blank_ : '\n' ∉ blank.toList) :
    (⟨prefix_ name field, value, ts, blank⟩ : Line).Plain := by
  have field_ := clean_field member
  refine ⟨?_, ?_, value_, blank_⟩ <;> simp [prefix_, clean, field_]

theorem plain_writeTimer {timer : Timer R} (plain : ∀ x, '\n' ∉ (fmt x).toList)
    (clean : ' ' ∉ name.toList ∧ '\n' ∉ name.toList) :
    ∀ l ∈ writeTimer fmt name timer ts, l.Plain := by
  have integer : ∀ {field i}, field ∈ fields .timer →
      (⟨prefix_ name field, toString i, ts, ""⟩ : Line).Plain := fun {_} i member =>
    plain_line .timer clean member (newline_notMem_int i) (by decide)
  have double : ∀ {field x blank}, field ∈ fields .timer → '\n' ∉ blank.toList →
      (⟨prefix_ name field, fmt x, ts, blank⟩ : Line).Plain := fun {_} x _ member blank =>
    plain_line .timer clean member (plain x) blank
  intro l member
  simp only [writeTimer, List.mem_cons, List.not_mem_nil, or_false] at member
  rcases member with
    rfl | rfl | rfl | rfl | rfl | rfl | rfl | rfl | rfl | rfl | rfl | rfl | rfl
  all_goals first | exact integer (by decide) | exact double (by decide) (by decide)

theorem plain_writeMeter {meter : Meter R} (plain : ∀ x, '\n' ∉ (fmt x).toList)
    (clean : ' ' ∉ name.toList ∧ '\n' ∉ name.toList) :
    ∀ l ∈ writeMeter fmt name meter ts, l.Plain := by
  intro l member
  simp only [writeMeter, List.mem_cons, List.not_mem_nil, or_false] at member
  rcases member with rfl | rfl | rfl
  all_goals exact plain_line .meter clean (by decide) (plain _) (by decide)

theorem plain_writebuf (plain : ∀ x, '\n' ∉ (fmt x).toList)
    (clean : ∀ kind, ∀ name ∈ (registry.list kind).entries.map (·.1),
      ' ' ∉ name.toList ∧ '\n' ∉ name.toList) :
    ∀ l ∈ r.writebuf fmt readings registry ts, l.Plain := by
  intro l member
  unfold writebuf at member
  split at member
  · cases member
  · cases member
  · rcases List.mem_append.1 member with member | inMeters
    · rcases List.mem_append.1 member with inCounters | inTimers
      · obtain ⟨e, inList, here⟩ := List.mem_flatMap.1 inCounters
        obtain rfl := List.mem_singleton.1 here
        exact plain_line .counter (clean .counter e.1 (List.mem_map_of_mem inList)) (by decide)
          (newline_notMem_int _) (by decide)
      · obtain ⟨e, inList, here⟩ := List.mem_flatMap.1 inTimers
        exact plain_writeTimer plain (clean .timer e.1 (List.mem_map_of_mem inList)) l here
    · obtain ⟨e, inList, here⟩ := List.mem_flatMap.1 inMeters
      exact plain_writeMeter plain (clean .meter e.1 (List.mem_map_of_mem inList)) l here

/-- A name without whitespace has neither of the characters that a report is taken apart at. -/
theorem separators_notMem {cs : List Call} (clean : ∀ kind name, .get kind name ∈ cs →
    ∀ c ∈ name.toList, c.isWhitespace = false) :
    ∀ kind, ∀ name ∈ ((play cs).registry.list kind).entries.map (·.1),
      ' ' ∉ name.toList ∧ '\n' ∉ name.toList := by
  intro kind name listed
  have clean := clean kind name (Registry.names_play.1 listed)
  exact ⟨fun space => absurd (clean ' ' space) (by decide),
    fun newline => absurd (clean '\n' newline) (by decide)⟩

/-- **Which reports have a path twice**: those of a registry in which a timer has the name of a counter
or of a meter. -/
theorem paths_nodup_iff (plain : ∀ x, '\n' ∉ (fmt x).toList) (readings : Readings R) (ts : Int)
    {cs : List Call} (clean : ∀ kind name, .get kind name ∈ cs →
      ∀ c ∈ name.toList, c.isWhitespace = false) (r : GraphiteReporter) :
    (paths (text (r.writebuf fmt readings (play cs).registry ts))).Nodup ↔
      (r.state = .connected → ∀ name, .get .timer name ∈ cs →
        .get .counter name ∉ cs ∧ .get .meter name ∉ cs) := by
  rw [paths_text (plain_writebuf plain (separators_notMem clean))]
  by_cases connected : r.state = .connected
  · rw [paths_writebuf connected, nodup_paths_samples]
    simp only [Registry.names_play, connected, true_implies]
  · have nothing : r.writebuf fmt readings (play cs).registry ts = [] := by
      unfold writebuf
      split
      · rfl
      · rfl
      · rename_i connected'
        exact absurd connected' connected
    simp [nothing, connected]

/-- `{:2.2f}` for a number of hundredths. -/
def hundredths (n : Nat) : String := (n / 100).repr ++ "." ++ (n / 10 % 10).repr ++ (n % 10).repr

theorem newline_notMem_hundredths (n : Nat) : '\n' ∉ (hundredths n).toList := by
  simp [hundredths, newline_notMem_digits]

/-- A connected reporter, and metrics that have counted up to 7. -/
def connected : GraphiteReporter := ⟨.connected, some 0, 1, [], [], []⟩

def seven : Readings Nat where
  counter _ := 7
  timer _ := ⟨7, 50, 50, 50, ⟨10, 30, 2000, 816, 2000, 3000, 3000, 3000, 3000⟩⟩
  meter _ := ⟨50, 50, 50⟩

/-- A counter and a meter share a name, which looks like a path of the timer. -/
def dotted : List Call :=
  [.get .counter "http.count", .get .timer "http", .get .meter "http.count"]

theorem paths_nodup_dotted :
    (paths (text (connected.writebuf hundredths seven (play dotted).registry 1420070400))).Nodup := by
  refine (paths_nodup_iff newline_notMem_hundredths seven 1420070400 ?_ connected).2 ?_
  · intro kind name called
    have clean : ∀ call ∈ dotted, ∀ kind name, call = .get kind name →
        name.toList.any Char.isWhitespace = false := by
      intro call member
      simp only [dotted, List.mem_cons, List.not_mem_nil, or_false] at member
      rcases member with rfl | rfl | rfl <;> (rintro kind name ⟨⟩; decide)
    intro c member
    simpa using List.any_eq_false.1 (clean _ called kind name rfl) c member
  · intro _ name called
    obtain rfl : name = "http" := by simpa [dotted] using called
    decide

/-- The same name for a counter and a timer. -/
def requests : List Call := [.get .counter "requests", .get .timer "requests"]

/-- Two lines of one report have the path `requests.count`. -/
theorem count_twice :
    (paths (text (connected.writebuf hundredths seven (play requests).registry 1420070400))).count
      "requests.count".toList = 2 ∧
    ¬ (paths (text (connected.writebuf hundredths seven (play requests).registry 1420070400))).Nodup := by
  have twice : (paths (text (connected.writebuf hundredths seven (play requests).registry
      1420070400))).count "requests.count".toList = 2 := by
    have clean : ∀ kind name, .get kind name ∈ requests →
        ∀ c ∈ name.toList, c.isWhitespace = false := by
      intro kind name called c member
      obtain rfl : name = "requests" := by
        simp only [requests, List.mem_cons, List.not_mem_nil, or_false, Call.get.injEq] at called
        exact called.elim And.right And.right
      have none_ : "requests".toList.any Char.isWhitespace = false := by decide
      simpa using List.any_eq_false.1 none_ c member
    rw [paths_text (plain_writebuf newline_notMem_hundredths (separators_notMem clean)),
      paths_writebuf rfl]
    decide +kernel
  refine ⟨twice, fun nodup => ?_⟩
  have once := List.nodup_iff_count_le_one.1 nodup "requests.count".toList
  omega

end GraphiteReporter

end Ccmetrics.Reporting
