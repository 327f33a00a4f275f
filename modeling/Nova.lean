import Nova.Core.DictBlockCache
import Nova.Louds.Dump
import Nova.Louds.FulltextRuns
import Nova.Louds.Reopen
import Nova.Query.Labels
import Nova.Reasoning.Current
import Nova.Ring.Generations
import Nova.Cypher.SetProperty
import Nova.Cypher.Accounted
import Nova.Cli.Load
import Nova.Server.Load
import Nova.Ring.Durability
import Nova.Ring.Alphabet
import Nova.Query.LftjEngines
import Nova.Query.PathAutomaton
import Nova.Query.Arithmetic
import Nova.Reasoning.Closed
import Nova.Reasoning.Violations
import Nova.Query.Correlated
import Nova.Query.TextSearch
import Nova.Cypher.Returns
import Nova.Query.Backends
import Nova.Server.FormDecode
import Nova.Query.JoinBinds
import Nova.Reasoning.TrieIter
