import KseRewriteProxy.Text.Search
import KseRewriteProxy.Text.Replace
import KseRewriteProxy.Text.Delimiter
import KseRewriteProxy.Text.Segments
import KseRewriteProxy.Text.Saturation
import KseRewriteProxy.Text.Utf8
import KseRewriteProxy.Text.Base64
import KseRewriteProxy.Streaming.Transducer
import KseRewriteProxy.Streaming.Chain
import KseRewriteProxy.Processes.Interleaving
import KseRewriteProxy.Processes.Queue
import KseRewriteProxy.Processes.Refinement
import KseRewriteProxy.Processes.Validation
import KseRewriteProxy.Literal.Basic
import KseRewriteProxy.Literal.Rewriter
import KseRewriteProxy.Literal.WholeText
import KseRewriteProxy.Literal.Validation
import KseRewriteProxy.Literal.Expression
import KseRewriteProxy.Literal.ExpressionText
import KseRewriteProxy.Literal.Invariant
import KseRewriteProxy.Literal.Pipeline
import KseRewriteProxy.Literal.Stage
import KseRewriteProxy.Rewrite.Policy
import KseRewriteProxy.Config.BasePath
import KseRewriteProxy.Config.Decoding
import KseRewriteProxy.Config.Effective
import KseRewriteProxy.Config.Upstream
import KseRewriteProxy.Config.Acceptance
import KseRewriteProxy.Rewrite.MigMeta
import KseRewriteProxy.Rewrite.MigMetaScan
import KseRewriteProxy.Rewrite.MigMetaExchange
import KseRewriteProxy.Rewrite.Builder
import KseRewriteProxy.Rewrite.ChunkIndependence
import KseRewriteProxy.Rewrite.Idempotence
import KseRewriteProxy.Rewrite.Grammar
import KseRewriteProxy.Rewrite.AttributeRules
import KseRewriteProxy.Rewrite.MigMetaInsertion
import KseRewriteProxy.Rewrite.ProxyIdempotence
import KseRewriteProxy.Rewrite.KubekeyIdempotence
import KseRewriteProxy.Proxy.Headers
import KseRewriteProxy.Proxy.Representation
import KseRewriteProxy.Proxy.IfNoneMatch
import KseRewriteProxy.Proxy.Hooks
import KseRewriteProxy.Proxy.Admission
import KseRewriteProxy.Proxy.Agreement
import KseRewriteProxy.Proxy.Identification
import KseRewriteProxy.Proxy.Downstream
import KseRewriteProxy.Proxy.Upstream
import KseRewriteProxy.Proxy.Relay
import KseRewriteProxy.Proxy.Resources
import KseRewriteProxy.Proxy.Monitoring
import KseRewriteProxy.Proxy.Revalidation
