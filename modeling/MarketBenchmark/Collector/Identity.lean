import MarketBenchmark.Foundation.Results

/-!
# The public identity of an observer

A runner ID names a cloud, a region, a metro and an ordinal, and nothing else.
The location can be inferred from it or be given beside it; whatever is given,
an accepted runner ID is of the location that would be inferred from it alone.
Texts are lists of characters.
-/

namespace MarketBenchmark

open Foundation.Results

abbrev Text : Type := List Char

def publicClouds : List Text :=
  ["aws".toList, "gcp".toList, "oracle".toList, "vpc".toList]

def publicRegions : List Text :=
  ["iad".toList, "us-west".toList, "fra".toList, "nrt".toList, "sin".toList]

def publicMetros : List Text :=
  ["iad".toList, "sjc".toList, "lax".toList, "fra".toList, "nrt".toList, "sin".toList]

/-! ## Inference -/

/-- The parts of a runner ID between `-` and `.`, in lower case. -/
def locationParts (runner : Text) : List Text :=
  (runner.splitOnP fun symbol => symbol == '-' || symbol == '.').map (·.map Char.toLower)

def regionOf (part : Text) : Option Text :=
  if part ∈ ["iad".toList, "fra".toList, "nrt".toList, "sin".toList] then some part
  else if part = "usw".toList then some "us-west".toList
  else none

/-- The cloud, the region and the metro that a runner ID names. -/
def inferLocation (runner : Text) : Option Text × Option Text × Option Text :=
  ((locationParts runner).find? (· ∈ publicClouds),
    (locationParts runner).findSome? regionOf,
    (locationParts runner).find? (· ∈ publicMetros))

/-! ## Validation -/

def normalizeLocation (name : String) (value : Option Text) (allowed : List Text) :
    Except String Text :=
  match value with
  | none =>
      .error ("BENCHMARK_" ++ name.map Char.toUpper ++
        " is required when it cannot be inferred from the public runner ID")
  | some value =>
      let lower := value.map Char.toLower
      if lower ∈ allowed then .ok lower
      else
        .error ("unsupported " ++ name ++ " '" ++ String.ofList lower ++ "'; expected one of " ++
          ", ".intercalate (allowed.map String.ofList))

/-- `str::strip_prefix`. -/
def stripPrefix (beginning text : Text) : Option Text :=
  if beginning <+: text then some (text.drop beginning.length) else none

def isOrdinal (text : Text) : Bool :=
  match text with
  | ['0', digit] => digit.isDigit && digit != '0'
  | _ => false

/-- The metro of the fleet of a cloud in `us-west`. -/
def fleetMetro (cloud : Text) : Text :=
  if cloud = "gcp".toList then "lax".toList else "sjc".toList

/-- What the runner IDs of a location begin with. -/
def runnerStem (cloud region metro : Text) : Text :=
  if region = "us-west".toList then cloud ++ "-usw-".toList ++ metro
  else cloud ++ '-' :: region

def validatePublicIdentity (runner cloud region metro : Text) : Except String Unit :=
  if cloud ∉ publicClouds then
    .error ("unsupported public cloud '" ++ String.ofList cloud ++ "'")
  else if region = "us-west".toList ∧ metro ≠ fleetMetro cloud then
    .error ("public " ++ String.ofList cloud ++
      " us-west runners must use the current fleet metro '" ++
      String.ofList (fleetMetro cloud) ++ "'")
  else if region ≠ "us-west".toList ∧ metro ≠ region then
    .error ("public runner metro '" ++ String.ofList metro ++
      "' must match non-us-west region '" ++ String.ofList region ++ "'")
  else
    let stem := runnerStem cloud region metro
    match ((stripPrefix stem runner).bind (stripPrefix ['-'])).filter isOrdinal with
    | some _ => .ok ()
    | none =>
        .error ("public runner ID must be '" ++ String.ofList stem ++ "-01' through '" ++
          String.ofList stem ++ "-09' for cloud=" ++ String.ofList cloud ++ ", region=" ++
          String.ofList region ++ ", metro=" ++ String.ofList metro ++
          "; private or inventory hostnames are forbidden")

/-- The location of a process, from what is given and what its runner ID says. -/
def resolveLocation (cloud region metro : Option Text) (runner : Text) :
    Except String (Text × Text × Text) := do
  let (inferredCloud, inferredRegion, inferredMetro) := inferLocation runner
  let cloud ← normalizeLocation "cloud" (cloud.or inferredCloud) publicClouds
  let region ← normalizeLocation "region" (region.or inferredRegion) publicRegions
  let metro ← normalizeLocation "metro" (metro.or inferredMetro) publicMetros
  validatePublicIdentity runner cloud region metro
  .ok (cloud, region, metro)

/-! ## What an accepted runner ID says -/

theorem eq_append_of_stripPrefix {beginning text rest : Text}
    (stripped : stripPrefix beginning text = some rest) : text = beginning ++ rest := by
  unfold stripPrefix at stripped
  split_ifs at stripped with isPrefix
  · obtain ⟨after, rfl⟩ := isPrefix
    rw [← Option.some.inj stripped, List.drop_left]

theorem stripPrefix_append (beginning rest : Text) :
    stripPrefix beginning (beginning ++ rest) = some rest := by
  unfold stripPrefix
  rw [if_pos (List.prefix_append beginning rest), List.drop_left]

/-- A location of the fleet. -/
structure PublicSite (cloud region metro : Text) : Prop where
  cloud_mem : cloud ∈ publicClouds
  region_mem : region ∈ publicRegions
  metro_eq : metro = if region = "us-west".toList then fleetMetro cloud else region

theorem normalizeLocation_mem {name : String} {value : Option Text} {allowed : List Text}
    {result : Text} (accepted : normalizeLocation name value allowed = .ok result) :
    result ∈ allowed := by
  cases value with
  | none => cases accepted
  | some value =>
      dsimp only [normalizeLocation] at accepted
      split_ifs at accepted with known
      exact Except.ok.inj accepted ▸ known

theorem normalizeLocation_self {name : String} {value : Text} {allowed : List Text}
    (isLower : value.map Char.toLower = value) (known : value ∈ allowed) :
    normalizeLocation name (some value) allowed = .ok value := by
  dsimp only [normalizeLocation]
  rw [isLower, if_pos known]

/-- The runner IDs of a site are its stem and an ordinal. -/
theorem validatePublicIdentity_iff {runner cloud region metro : Text}
    (regionKnown : region ∈ publicRegions) :
    validatePublicIdentity runner cloud region metro = .ok () ↔
      PublicSite cloud region metro ∧
        ∃ ordinal, isOrdinal ordinal = true ∧
          runner = runnerStem cloud region metro ++ '-' :: ordinal := by
  constructor
  · intro accepted
    unfold validatePublicIdentity at accepted
    split_ifs at accepted with known fleet other
    dsimp only at accepted
    split at accepted
    · rename_i ordinal found
      obtain ⟨stripped, isOrdinal⟩ := Option.filter_eq_some_iff.mp found
      obtain ⟨rest, front, back⟩ := Option.bind_eq_some_iff.mp stripped
      refine ⟨⟨known, regionKnown, ?_⟩, ordinal, isOrdinal, ?_⟩
      · split_ifs with west
        · exact not_not.mp fun different => fleet ⟨west, different⟩
        · exact not_not.mp fun different => other ⟨west, different⟩
      · rw [eq_append_of_stripPrefix front, eq_append_of_stripPrefix back]
        rfl
    · cases accepted
  · rintro ⟨site, ordinal, isOrdinal, rfl⟩
    have fleet : ¬(region = "us-west".toList ∧ metro ≠ fleetMetro cloud) := by
      rintro ⟨west, different⟩
      exact different (site.metro_eq.trans (if_pos west))
    have other : ¬(region ≠ "us-west".toList ∧ metro ≠ region) := by
      rintro ⟨east, different⟩
      exact different (site.metro_eq.trans (if_neg east))
    unfold validatePublicIdentity
    rw [if_neg (not_not.mpr site.cloud_mem), if_neg fleet, if_neg other]
    simp only [stripPrefix_append, Option.bind_some,
      show '-' :: ordinal = ['-'] ++ ordinal from rfl, Option.filter_some, isOrdinal, if_true]

/-! ## What a runner ID infers -/

theorem locationParts_append (front back : Text) :
    locationParts (front ++ '-' :: back) = locationParts front ++ locationParts back := by
  unfold locationParts
  rw [List.splitOnP_append_cons front back (by rfl), List.map_append]

/-- The parts after the stem say nothing that the stem has not said. -/
theorem inferLocation_append {front : Text} {cloud region metro : Text}
    (inferred : inferLocation front = (some cloud, some region, some metro)) (back : Text) :
    inferLocation (front ++ '-' :: back) = (some cloud, some region, some metro) := by
  unfold inferLocation at inferred ⊢
  obtain ⟨clouds, rest⟩ := Prod.mk.inj inferred
  obtain ⟨regions, metros⟩ := Prod.mk.inj rest
  rw [locationParts_append, List.find?_append, List.findSome?_append, List.find?_append, clouds,
    regions, metros]
  rfl

theorem inferLocation_stem {cloud region metro : Text} (site : PublicSite cloud region metro) :
    inferLocation (runnerStem cloud region metro) = (some cloud, some region, some metro) := by
  have all : ∀ cloud ∈ publicClouds, ∀ region ∈ publicRegions,
      inferLocation (runnerStem cloud region
        (if region = "us-west".toList then fleetMetro cloud else region)) =
      (some cloud, some region,
        some (if region = "us-west".toList then fleetMetro cloud else region)) := by
    decide +kernel
  have known := all cloud site.cloud_mem region site.region_mem
  rwa [← site.metro_eq] at known

namespace PublicSite

variable {cloud region metro : Text}

theorem metro_mem (site : PublicSite cloud region metro) : metro ∈ publicMetros := by
  have all : ∀ cloud ∈ publicClouds, ∀ region ∈ publicRegions,
      (if region = "us-west".toList then fleetMetro cloud else region) ∈ publicMetros := by
    decide +kernel
  rw [site.metro_eq]
  exact all cloud site.cloud_mem region site.region_mem

end PublicSite

theorem toLower_of_mem {value : Text}
    (member : value ∈ publicClouds ++ publicRegions ++ publicMetros) :
    value.map Char.toLower = value := by
  have all : ∀ value ∈ publicClouds ++ publicRegions ++ publicMetros,
      value.map Char.toLower = value := by
    decide +kernel
  exact all value member

/--
Whatever location is given, a runner ID is accepted only for the one that it
names by itself, and the accepted runner IDs are those of the fleet: the stem of
a site and an ordinal from `01` to `09`.
-/
theorem runner_names_location (runner cloud region metro : Text) :
    ((∃ givenCloud givenRegion givenMetro,
        resolveLocation givenCloud givenRegion givenMetro runner = .ok (cloud, region, metro)) ↔
      resolveLocation none none none runner = .ok (cloud, region, metro)) ∧
    (resolveLocation none none none runner = .ok (cloud, region, metro) ↔
      PublicSite cloud region metro ∧
        ∃ ordinal, isOrdinal ordinal = true ∧
          runner = runnerStem cloud region metro ++ '-' :: ordinal) := by
  have named : ∀ {givenCloud givenRegion givenMetro},
      resolveLocation givenCloud givenRegion givenMetro runner = .ok (cloud, region, metro) →
        PublicSite cloud region metro ∧
          ∃ ordinal, isOrdinal ordinal = true ∧
            runner = runnerStem cloud region metro ++ '-' :: ordinal := by
    intro givenCloud givenRegion givenMetro accepted
    unfold resolveLocation at accepted
    obtain ⟨someCloud, _, accepted⟩ := bind_eq_ok_iff.mp accepted
    obtain ⟨someRegion, regionOk, accepted⟩ := bind_eq_ok_iff.mp accepted
    obtain ⟨someMetro, _, accepted⟩ := bind_eq_ok_iff.mp accepted
    obtain ⟨_, validated, same⟩ := bind_eq_ok_iff.mp accepted
    obtain ⟨rfl, rfl, rfl⟩ : someCloud = cloud ∧ someRegion = region ∧ someMetro = metro := by
      simpa using Except.ok.inj same
    exact (validatePublicIdentity_iff (normalizeLocation_mem regionOk)).mp validated
  have resolved : (PublicSite cloud region metro ∧
      ∃ ordinal, isOrdinal ordinal = true ∧
        runner = runnerStem cloud region metro ++ '-' :: ordinal) →
      resolveLocation none none none runner = .ok (cloud, region, metro) := by
    rintro ⟨site, ordinal, isOrdinal, rfl⟩
    have validated := (validatePublicIdentity_iff site.region_mem).mpr
      ⟨site, ordinal, isOrdinal, rfl⟩
    unfold resolveLocation
    rw [inferLocation_append (inferLocation_stem site)]
    refine bind_eq_ok_iff.mpr ⟨_, normalizeLocation_self ?_ site.cloud_mem, ?_⟩
    · exact toLower_of_mem (by simp [site.cloud_mem])
    refine bind_eq_ok_iff.mpr ⟨_, normalizeLocation_self ?_ site.region_mem, ?_⟩
    · exact toLower_of_mem (by simp [site.region_mem])
    refine bind_eq_ok_iff.mpr ⟨_, normalizeLocation_self ?_ site.metro_mem, ?_⟩
    · exact toLower_of_mem (by simp [site.metro_mem])
    exact bind_eq_ok_iff.mpr ⟨(), validated, rfl⟩
  exact ⟨⟨fun ⟨_, _, _, accepted⟩ => resolved (named accepted), fun accepted =>
    ⟨none, none, none, accepted⟩⟩, named, resolved⟩

end MarketBenchmark
