import Retarget.Classpath.Root
import Retarget.CommandLine.Command

/-!
The places that a command may look at or change, so that they can be brought together before it is
carried out. The configuration file names some of them; as long as it is not among the files that
are known, those are missing from the list.
-/
namespace Retarget.CommandLine

def downgradePlaces (home : Option Path) (config : Config) (args : DowngradeArgs) : List Path :=
  let merged := config.merge args.jar args.overrides
  let settings := merged.settings
  [settings.input, settings.stagingPath, settings.backupPath] ++ settings.classpath ++
    settings.platformClasspath ++ merged.runtimeJar.toList ++ args.report.toList ++
    home.toList.flatMap platformPlaces

def commandPlaces (home : Option Path) (config : Config) : Command → List Path
  | .downgrade args => downgradePlaces home config args
  | .recover args =>
    [args.jar, args.jar.siblingWithSuffix (config.recoverySuffix args.stagingSuffix)]
  | .inspect args => [args.jar]

def places (home : Option Path) (words : List Text) (known : FileSystem) : List Path :=
  match parse words with
  | .error _ => []
  | .ok invocation =>
    let here := Path.ofString "."
    let config := (Config.loadOrDefault known invocation.config here).toOption.getD {}
    (invocation.config.getD (Config.placeIn here)) :: commandPlaces home config invocation.command

end Retarget.CommandLine
